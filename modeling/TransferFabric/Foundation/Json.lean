import Mathlib
import TransferFabric.Foundation.Words

/-!
A reader for JSON texts, and rules that say what it reads from a text put
together by hand.

A text is a string of bytes. The reader follows the grammar for values, with
space between the tokens, and refuses everything else: a control character in a
string, an unknown escape, half a surrogate pair, a number with a leading zero, a
comma too many. A string is read as the bytes it stands for, escapes undone; a
number is kept as its token. Bytes from `0x80` on are taken as they come: whether
the text is UTF-8 is a separate question, answered by `Utf8`.

Every rule is about a text that goes on with something else, so that rules can be
applied inside out.
-/

namespace Json

inductive Value where
  | null
  | bool (b : Bool)
  | number (token : List UInt8)
  | string (s : List UInt8)
  | array (vs : List Value)
  | object (ms : List (List UInt8 × Value))

/-- What was read, and the rest of the text. -/
abbrev Reader (α : Type) := List UInt8 → Option (α × List UInt8)

def quote : UInt8 := 0x22
def backslash : UInt8 := 0x5c
def comma : UInt8 := 0x2c
def colon : UInt8 := 0x3a
def openBrace : UInt8 := 0x7b
def closeBrace : UInt8 := 0x7d
def openBracket : UInt8 := 0x5b
def closeBracket : UInt8 := 0x5d

def isSpace (c : UInt8) : Bool := c = 0x20 ∨ c = 0x09 ∨ c = 0x0a ∨ c = 0x0d

def skip (text : List UInt8) : List UInt8 := text.dropWhile isSpace

/-- The bytes that must come next. -/
def eat : List UInt8 → List UInt8 → Option (List UInt8)
  | [], text => some text
  | _ :: _, [] => none
  | c :: word, d :: text => if c = d then eat word text else none

/-! Strings. -/

def hexValue (c : UInt8) : Option Nat :=
  if 0x30 ≤ c ∧ c ≤ 0x39 then some (c.toNat - 0x30)
  else if 0x61 ≤ c ∧ c ≤ 0x66 then some (c.toNat - 0x57)
  else if 0x41 ≤ c ∧ c ≤ 0x46 then some (c.toNat - 0x37)
  else none

/-- Four hexadecimal digits. -/
def readUnit : Reader Nat
  | a :: b :: c :: d :: rest => ([a, b, c, d].mapM hexValue).map fun ds => (Words.value 16 ds, rest)
  | _ => none

/-- What follows `\u`: a code unit, or two that make a pair. -/
def readUnicode : Reader (List UInt8) := fun text =>
  (readUnit text).bind fun p =>
    if 0xd800 ≤ p.1 ∧ p.1 < 0xdc00 then
      ((eat [backslash, 0x75] p.2).bind readUnit).bind fun q =>
        if 0xdc00 ≤ q.1 ∧ q.1 < 0xe000 then
          let code := 0x10000 + (p.1 - 0xd800) * 0x400 + (q.1 - 0xdc00)
          some (String.utf8EncodeChar (Char.ofNat code), q.2)
        else none
    else if 0xdc00 ≤ p.1 ∧ p.1 < 0xe000 then none
    else some (String.utf8EncodeChar (Char.ofNat p.1), p.2)

/-- What follows a backslash. -/
def readEscape : Reader (List UInt8)
  | [] => none
  | c :: rest =>
      if c = quote ∨ c = backslash ∨ c = 0x2f then some ([c], rest)
      else if c = 0x62 then some ([0x08], rest)
      else if c = 0x66 then some ([0x0c], rest)
      else if c = 0x6e then some ([0x0a], rest)
      else if c = 0x72 then some ([0x0d], rest)
      else if c = 0x74 then some ([0x09], rest)
      else if c = 0x75 then readUnicode rest
      else none

/-- The inside of a string, up to and with the closing quote. -/
def readChars : Nat → Reader (List UInt8)
  | 0, _ | _ + 1, [] => none
  | fuel + 1, c :: rest =>
      if c = quote then some ([], rest)
      else if c = backslash then
        (readEscape rest).bind fun p => (readChars fuel p.2).map fun q => (p.1 ++ q.1, q.2)
      else if c < 0x20 then none
      else (readChars fuel rest).map fun q => (c :: q.1, q.2)

/-! Numbers. -/

def isDigit (c : UInt8) : Bool := 0x30 ≤ c ∧ c ≤ 0x39

/-- One digit or more. -/
def readDigits : Reader (List UInt8) := fun text =>
  if text.takeWhile isDigit = [] then none
  else some (text.takeWhile isDigit, text.dropWhile isDigit)

/-- A part that is there if the text goes on with one of the marks. -/
def readPart (marks : List UInt8) (read : Reader (List UInt8)) : Reader (List UInt8)
  | [] => some ([], [])
  | c :: rest =>
      if c ∈ marks then (read rest).map fun p => (c :: p.1, p.2) else some ([], c :: rest)

/-- Digits, of which the first is a zero only if it is the only one. -/
def readInteger : Reader (List UInt8)
  | [] => none
  | c :: rest => if c = 0x30 then some ([c], rest) else readDigits (c :: rest)

/-- One reader after the other. -/
def andThen (first second : Reader (List UInt8)) : Reader (List UInt8) := fun text =>
  (first text).bind fun p => (second p.2).map fun q => (p.1 ++ q.1, q.2)

def readFraction : Reader (List UInt8) := readPart [0x2e] readDigits

def readExponent : Reader (List UInt8) :=
  readPart [0x65, 0x45] (andThen (readPart [0x2b, 0x2d] fun text => some ([], text)) readDigits)

def readNumber : Reader (List UInt8) :=
  andThen (readPart [0x2d] fun text => some ([], text))
    (andThen readInteger (andThen readFraction readExponent))

/-- A token that is a number and nothing more. -/
def IsNumber (token : List UInt8) : Prop := readNumber token = some (token, [])

instance (token : List UInt8) : Decidable (IsNumber token) :=
  inferInstanceAs (Decidable (readNumber token = some (token, [])))

/-! Values. -/

/-- The members of an object that has some. -/
def readMembers (readV : Reader Value) : Nat → Reader (List (List UInt8 × Value))
  | 0, _ => none
  | fuel + 1, text =>
      (eat [quote] (skip text)).bind fun text =>
      (readChars text.length text).bind fun key =>
      (eat [colon] (skip key.2)).bind fun text =>
      (readV text).bind fun v =>
        match skip v.2 with
        | [] => none
        | c :: rest =>
            if c = closeBrace then some ([(key.1, v.1)], rest)
            else if c = comma then
              (readMembers readV fuel rest).map fun ms => ((key.1, v.1) :: ms.1, ms.2)
            else none

/-- The elements of an array that has some. -/
def readElements (readV : Reader Value) : Nat → Reader (List Value)
  | 0, _ => none
  | fuel + 1, text =>
      (readV text).bind fun v =>
        match skip v.2 with
        | [] => none
        | c :: rest =>
            if c = closeBracket then some ([v.1], rest)
            else if c = comma then
              (readElements readV fuel rest).map fun vs => (v.1 :: vs.1, vs.2)
            else none

/-- The fuel bounds the depth; more than the length of the text is never needed. -/
def readValue : Nat → Reader Value
  | 0, _ => none
  | fuel + 1, text =>
      match skip text with
      | [] => none
      | c :: rest =>
          if c = openBrace then
            match eat [closeBrace] (skip rest) with
            | some rest => some (.object [], rest)
            | none => (readMembers (readValue fuel) rest.length rest).map fun p => (.object p.1, p.2)
          else if c = openBracket then
            match eat [closeBracket] (skip rest) with
            | some rest => some (.array [], rest)
            | none => (readElements (readValue fuel) rest.length rest).map fun p => (.array p.1, p.2)
          else if c = quote then (readChars rest.length rest).map fun p => (.string p.1, p.2)
          else if c = 0x6e then (eat [0x75, 0x6c, 0x6c] rest).map fun rest => (.null, rest)
          else if c = 0x74 then (eat [0x72, 0x75, 0x65] rest).map fun rest => (.bool true, rest)
          else if c = 0x66 then
            (eat [0x61, 0x6c, 0x73, 0x65] rest).map fun rest => (.bool false, rest)
          else (readNumber (c :: rest)).map fun p => (.number p.1, p.2)

/-- The value of a text, if the text is a JSON text. -/
def read (text : List UInt8) : Option Value :=
  (readValue (text.length + 1) text).bind fun p => if skip p.2 = [] then some p.1 else none

/-! What a reader of the value can ask. -/

/-- The member of that name. -/
def Value.field (name : List UInt8) : Value → Option Value
  | .object ms => ms.lookup name
  | _ => none

/-- The number of a token that is all digits. -/
def Value.natural : Value → Option Nat
  | .number token =>
      if token.all isDigit then some (Words.value 10 (token.map fun c => c.toNat - 0x30)) else none
  | _ => none

/-- An object all of whose members are natural numbers. -/
def Value.naturals : Value → Option (List (List UInt8 × Nat))
  | .object ms => ms.mapM fun m => m.2.natural.map fun n => (m.1, n)
  | _ => none

/-! Rules for strings. -/

/-- A piece of a string that is read in one step. -/
structure Piece (text s : List UInt8) : Prop where
  ne_nil : text ≠ []
  read : ∀ fuel rest, readChars (fuel + 1) (text ++ rest) =
    (readChars fuel rest).map fun q => (s ++ q.1, q.2)

theorem piece_plain {c : UInt8} (hquote : c ≠ quote) (hslash : c ≠ backslash) (hctl : ¬ c < 0x20) :
    Piece [c] [c] where
  ne_nil := List.cons_ne_nil _ _
  read fuel rest := by
    rw [List.singleton_append, readChars, if_neg hquote, if_neg hslash, if_neg hctl]
    rfl

theorem piece_escape {text s : List UInt8}
    (h : ∀ rest, readEscape (text ++ rest) = some (s, rest)) : Piece (backslash :: text) s where
  ne_nil := List.cons_ne_nil _ _
  read fuel rest := by
    rw [List.cons_append, readChars, if_neg (by decide), if_pos rfl, h]
    rfl

/-- The text between the quotes is read as the string. -/
def Spells (text s : List UInt8) : Prop :=
  ∀ fuel rest, text.length < fuel → readChars fuel (text ++ quote :: rest) = some (s, rest)

theorem spells_flatMap {f : UInt8 → List UInt8} {s : List UInt8} (h : ∀ c ∈ s, Piece (f c) [c]) :
    Spells (s.flatMap f) s := by
  induction s with
  | nil =>
      intro fuel rest hfuel
      obtain ⟨fuel, rfl⟩ := Nat.exists_eq_succ_of_ne_zero (Nat.ne_of_gt hfuel)
      rfl
  | cons c s ih =>
      intro fuel rest hfuel
      have hc := h c (List.mem_cons_self ..)
      have hpos := List.length_pos_iff.mpr hc.ne_nil
      rw [List.flatMap_cons, List.length_append] at hfuel
      obtain ⟨fuel, rfl⟩ := Nat.exists_eq_succ_of_ne_zero (by omega : fuel ≠ 0)
      rw [List.flatMap_cons, List.append_assoc, hc.read,
        ih (fun d hd => h d (List.mem_cons_of_mem _ hd)) fuel rest (by omega)]
      rfl

/-- Bytes that need no escape. -/
def Plain (s : List UInt8) : Prop := ∀ c ∈ s, c ≠ quote ∧ c ≠ backslash ∧ ¬ c < 0x20

instance (s : List UInt8) : Decidable (Plain s) := List.decidableBAll _ s

theorem spells_plain {s : List UInt8} (h : Plain s) : Spells s s := by
  have hspells := spells_flatMap (f := fun c => [c]) fun c hc =>
    piece_plain (h c hc).1 (h c hc).2.1 (h c hc).2.2
  rwa [List.flatMap_singleton'] at hspells

/-! Rules for numbers. -/

/-- The text does not go on as a number. -/
def Stops : List UInt8 → Prop
  | [] => True
  | c :: _ => isDigit c = false ∧ c ∉ [0x2b, 0x2d, 0x2e, 0x45, 0x65]

theorem stops_cons {c : UInt8} (h : isDigit c = false ∧ c ∉ [0x2b, 0x2d, 0x2e, 0x45, 0x65])
    (text : List UInt8) : Stops (c :: text) := h

/-- What the reader reads does not depend on what comes after the text, and is ASCII. -/
def Steady (read : Reader (List UInt8)) (after : List UInt8) : Prop :=
  ∀ text s rest, read text = some (s, rest) →
    read (text ++ after) = some (s, rest ++ after) ∧ ∀ c ∈ s, c < 0x80

section Steady

variable {after : List UInt8}

theorem Stops.not_mem {marks : List UInt8} (h : Stops after)
    (hmarks : ∀ c ∈ marks, c ∈ [0x2b, 0x2d, 0x2e, 0x45, 0x65]) :
    ∀ c ∈ after.head?, c ∉ marks := by
  intro c hc hmark
  cases after with
  | nil => cases hc
  | cons d after =>
      obtain rfl : d = c := Option.some.inj hc
      exact h.2 (hmarks d hmark)

theorem Stops.digits_append (h : Stops after) (text : List UInt8) :
    (text ++ after).takeWhile isDigit = text.takeWhile isDigit ∧
      (text ++ after).dropWhile isDigit = text.dropWhile isDigit ++ after := by
  induction text with
  | nil =>
      cases after with
      | nil => exact ⟨rfl, rfl⟩
      | cons c after => simp [h.1]
  | cons c text ih =>
      cases hc : isDigit c with
      | false => simp [hc]
      | true => simp [hc, ih]

theorem steady_digits (h : Stops after) : Steady readDigits after := by
  intro text s rest hread
  unfold readDigits at hread ⊢
  rw [(h.digits_append text).1, (h.digits_append text).2]
  split_ifs at hread ⊢ with hds
  obtain ⟨rfl, rfl⟩ := Prod.mk.inj (Option.some.inj hread)
  refine ⟨rfl, fun c hc => ?_⟩
  have hdigit : isDigit c = true := List.mem_takeWhile_imp hc
  exact UInt8.lt_of_le_of_lt (of_decide_eq_true hdigit).2 (by decide)

theorem steady_nothing : Steady (fun text => some ([], text)) after := by
  intro text s rest hread
  obtain ⟨rfl, rfl⟩ := Prod.mk.inj (Option.some.inj hread)
  exact ⟨rfl, fun _ hc => by cases hc⟩

theorem steady_part {marks : List UInt8} {read : Reader (List UInt8)}
    (hafter : ∀ c ∈ after.head?, c ∉ marks) (hmarks : ∀ c ∈ marks, c < 0x80)
    (hread : Steady read after) : Steady (readPart marks read) after := by
  intro text s rest hpart
  cases text with
  | nil =>
      obtain ⟨rfl, rfl⟩ := Prod.mk.inj (Option.some.inj hpart)
      refine ⟨?_, fun _ hc => by cases hc⟩
      cases after with
      | nil => rfl
      | cons c after => exact if_neg (hafter c rfl)
  | cons c text =>
      rw [readPart] at hpart
      rw [List.cons_append, readPart]
      split_ifs at hpart ⊢ with hc
      · obtain ⟨p, hp, heq⟩ := Option.map_eq_some_iff.mp hpart
        obtain ⟨rfl, rfl⟩ := Prod.mk.inj heq
        obtain ⟨happend, hascii⟩ := hread text p.1 p.2 hp
        rw [happend]
        exact ⟨rfl, List.forall_mem_cons.mpr ⟨hmarks c hc, hascii⟩⟩
      · exact steady_nothing (c :: text) s rest hpart

theorem steady_andThen {first second : Reader (List UInt8)} (hfirst : Steady first after)
    (hsecond : Steady second after) : Steady (andThen first second) after := by
  intro text s rest hread
  obtain ⟨p, hp, hmap⟩ := Option.bind_eq_some_iff.mp hread
  obtain ⟨q, hq, heq⟩ := Option.map_eq_some_iff.mp hmap
  obtain ⟨rfl, rfl⟩ := Prod.mk.inj heq
  obtain ⟨happend, hascii⟩ := hfirst text p.1 p.2 hp
  obtain ⟨happend', hascii'⟩ := hsecond p.2 q.1 q.2 hq
  rw [andThen, happend, Option.bind_some, happend']
  exact ⟨rfl, List.forall_mem_append.mpr ⟨hascii, hascii'⟩⟩

theorem steady_integer (h : Stops after) : Steady readInteger after := by
  intro text s rest hread
  cases text with
  | nil => cases hread
  | cons c text =>
      rw [readInteger] at hread
      rw [List.cons_append, readInteger]
      split_ifs at hread ⊢ with hc
      · obtain ⟨rfl, rfl⟩ := Prod.mk.inj (Option.some.inj hread)
        rw [hc]
        exact ⟨rfl, List.forall_mem_singleton.mpr (by decide)⟩
      · exact steady_digits h (c :: text) s rest hread

theorem steady_number (h : Stops after) : Steady readNumber after := by
  have hdigits := steady_digits h
  have hsign {marks : List UInt8} (hmarks : ∀ c ∈ marks, c ∈ [0x2b, 0x2d, 0x2e, 0x45, 0x65])
      (hascii : ∀ c ∈ marks, c < 0x80) :=
    steady_part (h.not_mem hmarks) hascii (steady_nothing : Steady _ after)
  refine steady_andThen (hsign (by decide +kernel) (by decide +kernel)) ?_
  refine steady_andThen (steady_integer h) (steady_andThen ?_ ?_)
  · exact steady_part (h.not_mem (by decide +kernel)) (by decide +kernel) hdigits
  · exact steady_part (h.not_mem (by decide +kernel)) (by decide +kernel)
      (steady_andThen (hsign (by decide +kernel) (by decide +kernel)) hdigits)

end Steady

/-- The decimal numeral of a number. -/
def decimal (n : Nat) : List UInt8 := (Words.numeral 10 n).map fun d => UInt8.ofNat (0x30 + d)

theorem isDigit_ofNat : ∀ d < 10, isDigit (UInt8.ofNat (0x30 + d)) = true ∧
    (UInt8.ofNat (0x30 + d)).toNat - 0x30 = d := by decide

theorem isDigit_of_mem_decimal {n : Nat} {c : UInt8} (h : c ∈ decimal n) : isDigit c = true := by
  obtain ⟨d, hd, rfl⟩ := List.mem_map.mp h
  exact (isDigit_ofNat d (Words.lt_of_mem_numeral (by decide) hd)).1

theorem natural_decimal (n : Nat) : (Value.number (decimal n)).natural = some n := by
  have hall : (decimal n).all isDigit = true :=
    List.all_eq_true.mpr fun c hc => isDigit_of_mem_decimal hc
  rw [Value.natural, if_pos hall, decimal, List.map_map, List.map_congr_left (g := id),
    List.map_id, Words.value_numeral]
  intro d hd
  exact (isDigit_ofNat d (Words.lt_of_mem_numeral (by decide) hd)).2

theorem readInteger_decimal (n : Nat) : readInteger (decimal n) = some (decimal n, []) := by
  rcases Words.numeral_cases 10 n with hzero | ⟨d, ds, hd, hnumeral⟩
  · rw [decimal, hzero]
    rfl
  · have hlt : d < 10 := Words.lt_of_mem_numeral (by decide) (hnumeral ▸ List.mem_cons_self ..)
    have hdecimal : decimal n = UInt8.ofNat (0x30 + d) ::
        ds.map fun d => UInt8.ofNat (0x30 + d) := by
      rw [decimal, hnumeral, List.map_cons]
    have hne : UInt8.ofNat (0x30 + d) ≠ 0x30 := by
      have hall : ∀ d < 10, d ≠ 0 → UInt8.ofNat (0x30 + d) ≠ 0x30 := by decide
      exact hall d hlt hd
    have htake : (decimal n).takeWhile isDigit = decimal n :=
      List.takeWhile_eq_self_iff.mpr fun c hc => isDigit_of_mem_decimal hc
    have hdrop : (decimal n).dropWhile isDigit = [] :=
      List.dropWhile_eq_nil_iff.mpr fun c hc => isDigit_of_mem_decimal hc
    rw [hdecimal, readInteger, if_neg hne, ← hdecimal, readDigits, htake, hdrop,
      if_neg (by rw [hdecimal]; exact List.cons_ne_nil _ _)]

theorem isNumber_decimal (n : Nat) : IsNumber (decimal n) := by
  have hsign : readPart [0x2d] (fun text => some ([], text)) (decimal n) =
      some ([], decimal n) := by
    cases hn : decimal n with
    | nil => rfl
    | cons c text =>
        refine if_neg fun hc => ?_
        have hdigit := isDigit_of_mem_decimal (hn ▸ List.mem_cons_self ..)
        rw [List.mem_singleton.mp hc] at hdigit
        cases hdigit
  rw [IsNumber, readNumber, andThen, hsign, Option.bind_some, andThen, readInteger_decimal]
  simp [andThen, readFraction, readExponent, readPart]

/-! Rules for values. -/

/-- The text is read as the value, whatever follows that is not a part of a number. -/
def Denotes (text : List UInt8) (v : Value) : Prop :=
  ∀ fuel after, text.length < fuel → Stops after →
    readValue fuel (text ++ after) = some (v, after)

/-- A text that a member of an object is read from. -/
inductive Member : List UInt8 → List UInt8 × Value → Prop
  | mk {body text name : List UInt8} {v : Value} (hname : Spells body name)
      (hv : Denotes text v) : Member (quote :: (body ++ quote :: colon :: text)) (name, v)

/-- A number starts with a digit or a minus sign, so it cannot be taken for anything else. -/
theorem number_start {c : UInt8} {text : List UInt8} (h : IsNumber (c :: text)) :
    c = 0x2d ∨ isDigit c = true := by
  by_cases hminus : c = 0x2d
  · exact .inl hminus
  · right
    have hsign : readPart [0x2d] (fun text => some ([], text)) (c :: text) =
        some ([], c :: text) := if_neg (by simpa using hminus)
    rw [IsNumber, readNumber, andThen, hsign, Option.bind_some, andThen] at h
    obtain ⟨p, hp, -⟩ := Option.map_eq_some_iff.mp h
    obtain ⟨q, hq, -⟩ := Option.bind_eq_some_iff.mp hp
    rw [readInteger] at hq
    split_ifs at hq with hzero
    · rw [hzero]
      rfl
    · rw [readDigits] at hq
      split_ifs at hq with hnone
      rw [List.takeWhile_cons] at hnone
      by_contra hdigit
      exact hnone (if_neg hdigit)

theorem start_apart {c : UInt8} (h : c = 0x2d ∨ isDigit c = true) :
    isSpace c = false ∧ c ∉ [openBrace, openBracket, quote, 0x6e, 0x74, 0x66] :=
  Words.forall_byte (P := fun c => c = 0x2d ∨ isDigit c = true →
    isSpace c = false ∧ c ∉ [openBrace, openBracket, quote, 0x6e, 0x74, 0x66])
    (by decide +kernel) c h

theorem skip_cons {c : UInt8} (h : isSpace c = false) (text : List UInt8) :
    skip (c :: text) = c :: text := List.dropWhile_cons_of_neg (by rw [h]; exact Bool.false_ne_true)

theorem denotes_number {token : List UInt8} (h : IsNumber token) :
    Denotes token (.number token) := by
  intro fuel after hfuel hstops
  obtain ⟨fuel, rfl⟩ := Nat.exists_eq_succ_of_ne_zero (Nat.ne_zero_of_lt hfuel)
  cases token with
  | nil => cases h
  | cons c text =>
      obtain ⟨hspace, hother⟩ := start_apart (number_start h)
      simp only [List.mem_cons, List.not_mem_nil, or_false, not_or] at hother
      obtain ⟨hbrace, hbracket, hquote, hn, ht, hf⟩ := hother
      have hread := (steady_number hstops (c :: text) (c :: text) [] h).1
      rw [List.cons_append] at hread ⊢
      simp only [readValue, skip_cons hspace, if_neg hbrace, if_neg hbracket, if_neg hquote,
        if_neg hn, if_neg ht, if_neg hf, hread]
      rfl

/-- One member is read, and what comes next decides. -/
theorem readMembers_member {text name : List UInt8} {v : Value} (h : Member text (name, v))
    {depth : Nat} (hdepth : text.length ≤ depth) {c : UInt8} (tail : List UInt8)
    (hstops : Stops (c :: tail)) (hspace : isSpace c = false) (fuel : Nat) :
    readMembers (readValue depth) (fuel + 1) (text ++ c :: tail) =
      if c = closeBrace then some ([(name, v)], tail)
      else if c = comma then
        (readMembers (readValue depth) fuel tail).map fun ms => ((name, v) :: ms.1, ms.2)
      else none := by
  cases h with
  | @mk body text _ _ hname hv =>
      have hlen : text.length < depth := by
        simp only [List.length_cons, List.length_append] at hdepth
        omega
      have hchars := hname (body ++ quote :: (colon :: (text ++ c :: tail))).length
        (colon :: (text ++ c :: tail)) (by simp)
      have hvalue := hv depth (c :: tail) hlen hstops
      rw [show quote :: (body ++ quote :: colon :: text) ++ c :: tail =
        quote :: (body ++ quote :: (colon :: (text ++ c :: tail))) by simp]
      simp only [readMembers, skip_cons (show isSpace quote = false from rfl), eat, if_true,
        Option.bind_some, hchars, skip_cons (show isSpace colon = false from rfl), hvalue,
        skip_cons hspace]

theorem readMembers_append {texts : List (List UInt8)} {ms : List (List UInt8 × Value)}
    (h : List.Forall₂ Member texts ms) (hne : texts ≠ []) (depth : Nat)
    (hdepth : ∀ text ∈ texts, text.length ≤ depth) (after : List UInt8) (fuel : Nat)
    (hfuel : texts.length ≤ fuel) :
    readMembers (readValue depth) fuel ([comma].intercalate texts ++ closeBrace :: after) =
      some (ms, after) := by
  induction h generalizing fuel with
  | nil => exact absurd rfl hne
  | @cons text m texts ms hm hrest ih =>
      obtain ⟨fuel, rfl⟩ := Nat.exists_eq_succ_of_ne_zero (Nat.ne_zero_of_lt hfuel)
      have htext := hdepth text (List.mem_cons_self ..)
      cases hrest with
      | nil =>
          rw [List.intercalate_singleton,
            readMembers_member hm htext after (stops_cons (by decide) _) rfl, if_pos rfl]
      | @cons text' m' texts ms hm' hrest =>
          have htail := ih (List.cons_ne_nil _ _)
            (fun t ht => hdepth t (List.mem_cons_of_mem _ ht)) fuel (Nat.le_of_succ_le_succ hfuel)
          rw [List.intercalate_cons_cons, List.append_assoc, List.append_assoc,
            List.singleton_append,
            readMembers_member hm htext _ (stops_cons (by decide) _) rfl, if_neg (by decide),
            if_pos rfl, htail]
          rfl

/-- Joining texts makes none of them longer than the whole, nor more of them than it has bytes. -/
theorem length_intercalate {texts : List (List UInt8)} (hne : ∀ text ∈ texts, text ≠ []) :
    texts.length ≤ ([comma].intercalate texts).length ∧
      ∀ text ∈ texts, text.length ≤ ([comma].intercalate texts).length := by
  induction texts with
  | nil => exact ⟨Nat.le_refl _, fun _ h => by cases h⟩
  | cons text texts ih =>
      have hpos := List.length_pos_iff.mpr (hne text (List.mem_cons_self ..))
      cases texts with
      | nil =>
          rw [List.intercalate_singleton]
          refine ⟨hpos, fun t ht => ?_⟩
          rw [List.mem_singleton.mp ht]
      | cons text' texts =>
          obtain ⟨hlen, hall⟩ := ih fun t ht => hne t (List.mem_cons_of_mem _ ht)
          rw [List.intercalate_cons_cons, List.length_append, List.length_append,
            List.length_singleton]
          refine ⟨by rw [List.length_cons]; omega, fun t ht => ?_⟩
          rcases List.mem_cons.mp ht with rfl | ht
          · omega
          · have := hall t ht
            omega

theorem Member.cons_quote {text : List UInt8} {m : List UInt8 × Value} (h : Member text m) :
    ∃ rest, text = quote :: rest := by
  cases h with
  | mk hname hv => exact ⟨_, rfl⟩

theorem members_ne_nil {texts : List (List UInt8)} {ms : List (List UInt8 × Value)}
    (h : List.Forall₂ Member texts ms) : ∀ text ∈ texts, text ≠ [] := by
  induction h with
  | nil => exact fun _ ht => by cases ht
  | cons hm hrest ih =>
      obtain ⟨rest, rfl⟩ := hm.cons_quote
      exact List.forall_mem_cons.mpr ⟨List.cons_ne_nil _ _, ih⟩

theorem intercalate_cons_quote {text : List UInt8} {m : List UInt8 × Value} (hm : Member text m)
    (texts : List (List UInt8)) :
    ∃ rest, [comma].intercalate (text :: texts) = quote :: rest := by
  obtain ⟨body, rfl⟩ := hm.cons_quote
  cases texts with
  | nil => exact ⟨body, List.intercalate_singleton⟩
  | cons text texts => exact ⟨_, List.intercalate_cons_cons⟩

theorem denotes_object {texts : List (List UInt8)} {ms : List (List UInt8 × Value)}
    (h : List.Forall₂ Member texts ms) :
    Denotes (openBrace :: ([comma].intercalate texts ++ [closeBrace])) (.object ms) := by
  intro fuel after hfuel hstops
  obtain ⟨fuel, rfl⟩ := Nat.exists_eq_succ_of_ne_zero (Nat.ne_zero_of_lt hfuel)
  rw [List.length_cons, List.length_append, List.length_singleton] at hfuel
  rw [List.cons_append, List.append_assoc, List.singleton_append]
  simp only [readValue, skip_cons (show isSpace openBrace = false from rfl), if_true]
  obtain ⟨hlen, hall⟩ := length_intercalate (members_ne_nil h)
  cases h with
  | nil => rfl
  | @cons text m texts ms hm hrest =>
      have hmembers := readMembers_append (hrest.cons hm) (List.cons_ne_nil _ _) fuel
        (fun t ht => Nat.le_trans (hall t ht) (by omega)) after
        ([comma].intercalate (text :: texts) ++ closeBrace :: after).length
        (by rw [List.length_append]; omega)
      obtain ⟨rest, hquote⟩ := intercalate_cons_quote hm texts
      have hopen : eat [closeBrace]
          (skip ([comma].intercalate (text :: texts) ++ closeBrace :: after)) = none := by
        rw [hquote, List.cons_append, skip_cons rfl]
        rfl
      rw [hopen]
      simp only [hmembers]
      rfl

theorem read_eq {text : List UInt8} {v : Value} (h : Denotes text v) : read text = some v := by
  have hread := h (text.length + 1) [] (Nat.lt_succ_self _) trivial
  rw [List.append_nil] at hread
  rw [read, hread]
  rfl

example : (read "\x7b\"a\":[1, 2.5e3],\"b\":null\x7d".toUTF8.toList).isSome = true := by
  decide +kernel

example : (read "\x7b\"a\":01,\x7d".toUTF8.toList).isSome = false := by decide +kernel

/-! Rules for what was read. -/

theorem field_of_mem {ms : List (List UInt8 × Value)} (hnames : (ms.map Prod.fst).Nodup)
    {name : List UInt8} {v : Value} (h : (name, v) ∈ ms) :
    (Value.object ms).field name = some v := by
  show ms.lookup name = some v
  induction ms with
  | nil => cases h
  | cons m ms ih =>
      rw [List.map_cons, List.nodup_cons] at hnames
      rcases List.mem_cons.mp h with rfl | h
      · exact List.lookup_cons_self
      · have hne : name ≠ m.1 := by
          rintro rfl
          exact hnames.1 (List.mem_map.mpr ⟨_, h, rfl⟩)
        rw [List.lookup_cons, beq_false_of_ne hne]
        exact ih hnames.2 h

theorem naturals_object {α : Type} (es : List α) (name : α → List UInt8) (n : α → Nat) :
    (Value.object (es.map fun e => (name e, .number (decimal (n e))))).naturals =
      some (es.map fun e => (name e, n e)) := by
  show List.mapM _ _ = _
  induction es with
  | nil => rfl
  | cons e es ih =>
      rw [List.map_cons, List.mapM_cons, ih, natural_decimal]
      rfl

/-! UTF-8. -/

/-- The bytes are those of a string of characters. -/
def Utf8 (text : List UInt8) : Prop := ∃ cs : List Char, text = cs.flatMap String.utf8EncodeChar

theorem Utf8.append {a b : List UInt8} (ha : Utf8 a) (hb : Utf8 b) : Utf8 (a ++ b) := by
  obtain ⟨cs, rfl⟩ := ha
  obtain ⟨ds, rfl⟩ := hb
  exact ⟨cs ++ ds, List.flatMap_append.symm⟩

theorem utf8_intercalate {sep : List UInt8} {texts : List (List UInt8)} (hsep : Utf8 sep)
    (h : ∀ text ∈ texts, Utf8 text) : Utf8 (sep.intercalate texts) := by
  induction texts with
  | nil => exact ⟨[], rfl⟩
  | cons text texts ih =>
      have htext := h text (List.mem_cons_self ..)
      cases texts with
      | nil => rwa [List.intercalate_singleton]
      | cons next texts =>
          rw [List.intercalate_cons_cons]
          exact (htext.append hsep).append (ih fun t ht => h t (List.mem_cons_of_mem _ ht))

theorem encode_ascii : ∀ n < 128, String.utf8EncodeChar (Char.ofNat n) = [UInt8.ofNat n] := by
  decide

/-- Four hexadecimal digits of an ASCII character. -/
theorem readUnicode_ascii {ds : List UInt8} {vs : List Nat} (hlen : ds.length = 4)
    (hds : ds.mapM hexValue = some vs) (hn : Words.value 16 vs < 128) (rest : List UInt8) :
    readUnicode (ds ++ rest) = some ([UInt8.ofNat (Words.value 16 vs)], rest) := by
  have hunit : readUnit (ds ++ rest) = some (Words.value 16 vs, rest) := by
    obtain ⟨a, b, c, d, rfl⟩ := List.length_eq_four.mp hlen
    show ([a, b, c, d].mapM hexValue).map _ = _
    rw [hds]
    rfl
  rw [readUnicode, hunit, Option.bind_some, if_neg (by dsimp only; omega),
    if_neg (by dsimp only; omega), encode_ascii _ hn]

/-- Every byte is an ASCII character. -/
def Ascii (s : List UInt8) : Prop := ∀ c ∈ s, c < 0x80

instance (s : List UInt8) : Decidable (Ascii s) := List.decidableBAll _ s

theorem utf8_ascii {text : List UInt8} (h : Ascii text) : Utf8 text := by
  induction text with
  | nil => exact ⟨[], rfl⟩
  | cons c text ih =>
      obtain ⟨cs, hcs⟩ := ih fun d hd => h d (List.mem_cons_of_mem _ hd)
      have hc := encode_ascii c.toNat (UInt8.lt_iff_toNat_lt.mp (h c (List.mem_cons_self ..)))
      refine ⟨Char.ofNat c.toNat :: cs, ?_⟩
      rw [List.flatMap_cons, hc, UInt8.ofNat_toNat, ← hcs]
      rfl

theorem not_lt_ofNat {n : Nat} (hlow : 128 ≤ n) (hhigh : n < 256) : ¬ UInt8.ofNat n < 0x80 := by
  rw [UInt8.lt_iff_toNat_lt, UInt8.toNat_ofNat_of_lt' hhigh]
  exact Nat.not_lt.mpr hlow

/-- A character is one byte below `0x80`, or bytes from there on. -/
theorem encode_cases (c : Char) : (∃ b < 0x80, String.utf8EncodeChar c = [b]) ∨
    ∀ b ∈ String.utf8EncodeChar c, ¬ b < 0x80 := by
  unfold String.utf8EncodeChar
  dsimp only
  split_ifs with h
  · refine .inl ⟨_, ?_, rfl⟩
    rw [UInt8.lt_iff_toNat_lt, UInt8.toNat_ofNat_of_lt' (Nat.lt_of_le_of_lt h (by decide))]
    exact Nat.lt_succ_of_le h
  all_goals
    right
    simp only [List.forall_mem_cons, List.not_mem_nil, false_imp_iff, implies_true, and_true]
    refine ⟨?_, ?_⟩
  · exact not_lt_ofNat (by omega) (by omega)
  · exact not_lt_ofNat (by omega) (by omega)
  · exact not_lt_ofNat (by omega) (by omega)
  · exact ⟨not_lt_ofNat (by omega) (by omega), not_lt_ofNat (by omega) (by omega)⟩
  · exact not_lt_ofNat (by omega) (by omega)
  · exact ⟨not_lt_ofNat (by omega) (by omega), not_lt_ofNat (by omega) (by omega),
      not_lt_ofNat (by omega) (by omega)⟩

theorem IsNumber.ascii {token : List UInt8} (h : IsNumber token) : Ascii token := by
  have hsteady : Steady readNumber [] := steady_number trivial
  exact (hsteady token token [] h).2

/-- Replacing bytes below `0x80` by such bytes keeps a text UTF-8. -/
theorem Utf8.flatMap {f : UInt8 → List UInt8} {s : List UInt8} (hs : Utf8 s)
    (hlow : ∀ c < 0x80, Ascii (f c)) (hhigh : ∀ c, ¬ c < 0x80 → f c = [c]) :
    Utf8 (s.flatMap f) := by
  obtain ⟨cs, rfl⟩ := hs
  induction cs with
  | nil => exact ⟨[], rfl⟩
  | cons c cs ih =>
      rw [List.flatMap_cons, List.flatMap_append]
      refine Utf8.append ?_ ih
      rcases encode_cases c with ⟨b, hb, hc⟩ | hc
      · rw [hc, List.flatMap_singleton]
        exact utf8_ascii (hlow b hb)
      · have hsame : (String.utf8EncodeChar c).flatMap f = String.utf8EncodeChar c := by
          rw [List.flatMap_congr fun b hb => hhigh b (hc b hb), List.flatMap_singleton']
        rw [hsame]
        exact ⟨[c], (List.flatMap_singleton ..).symm⟩

end Json
