import Tesseract.L3Store.ColdStore

/-!
# JSON texts

The compact text `serde_json` writes, over the numbers of `Lit`, and a parser of
such texts, for concrete runs. The numbers are integers here, so that a float is
its digits and `.0`; a surrogate pair is not read, and none is written.

* `parseString_escape`: a string is read behind its escapes.
* `parseValue_printValue`: a value is read, whatever follows it, with fuel for its
  size and a depth that holds it.
* `jsonText_lawful`: so what is printed and not nested more than 127 deep is
  parsed.
-/
namespace Tesseract.L3.Serde

/-! ## Printing -/

def hexDigit (n : Nat) : Char := if n < 10 then Char.ofNat (48 + n) else Char.ofNat (87 + n)

/-- `serde_json::ser::format_escaped_str_contents` of one character -/
def escapeChar (c : Char) : List Char :=
  if c = '"' then ['\\', '"']
  else if c = '\\' then ['\\', '\\']
  else if c = '\x08' then ['\\', 'b']
  else if c = '\x0c' then ['\\', 'f']
  else if c = '\n' then ['\\', 'n']
  else if c = '\r' then ['\\', 'r']
  else if c = '\t' then ['\\', 't']
  else if c.toNat < 32 then ['\\', 'u', '0', '0', hexDigit (c.toNat / 16), hexDigit (c.toNat % 16)]
  else [c]

def printString (s : String) : List Char := '"' :: (s.toList.flatMap escapeChar ++ ['"'])

def printInt : Int → List Char
  | .ofNat n => Nat.toDigits 10 n
  | .negSucc n => '-' :: Nat.toDigits 10 (n + 1)

def printFloat : Lit → List Char
  | .fin n => printInt n ++ ['.', '0']
  | _ => []

mutual

def printValue : Value Lit → List Char
  | .null => ['n', 'u', 'l', 'l']
  | .bool true => ['t', 'r', 'u', 'e']
  | .bool false => ['f', 'a', 'l', 's', 'e']
  | .nat n => printInt n.toNat
  | .neg n => printInt (.negSucc n.val)
  | .float x => printFloat x.1
  | .str s => printString s
  | .arr [] => ['[', ']']
  | .arr (x :: xs) => '[' :: (printValue x ++ printElems xs)
  | .obj [] => ['\x7b', '\x7d']
  | .obj ((k, x) :: xs) => '\x7b' :: (printString k ++ ':' :: (printValue x ++ printFields xs))

/-- The further elements and the closing bracket. -/
def printElems : List (Value Lit) → List Char
  | [] => [']']
  | x :: xs => ',' :: (printValue x ++ printElems xs)

/-- The further fields and the closing brace. -/
def printFields : List (String × Value Lit) → List Char
  | [] => ['\x7d']
  | (k, x) :: xs => ',' :: (printString k ++ ':' :: (printValue x ++ printFields xs))

end

/-! ## Parsing -/

def hexValue (c : Char) : Option Nat :=
  if '0' ≤ c ∧ c ≤ '9' then some (c.toNat - 48)
  else if 'a' ≤ c ∧ c ≤ 'f' then some (c.toNat - 87)
  else if 'A' ≤ c ∧ c ≤ 'F' then some (c.toNat - 55)
  else none

def unescape (c : Char) : Option Char :=
  if c = '"' ∨ c = '\\' ∨ c = '/' then some c
  else if c = 'b' then some '\x08'
  else if c = 'f' then some '\x0c'
  else if c = 'n' then some '\n'
  else if c = 'r' then some '\r'
  else if c = 't' then some '\t'
  else none

/-- `\\u` and four digits -/
def hexChar (d₃ d₂ d₁ d₀ : Char) : Option Char := do
  let n₃ ← hexValue d₃
  let n₂ ← hexValue d₂
  let n₁ ← hexValue d₁
  let n₀ ← hexValue d₀
  let n := ((n₃ * 16 + n₂) * 16 + n₁) * 16 + n₀
  if n.isValidChar then some (Char.ofNat n) else none

def consChar (c : Option Char) (p : Option (List Char × List Char)) :
    Option (List Char × List Char) := do
  let c ← c
  let p ← p
  some (c :: p.1, p.2)

/-- The rest of a string behind its opening quote. -/
def parseString : List Char → Option (List Char × List Char)
  | [] => none
  | '"' :: rest => some ([], rest)
  | '\\' :: 'u' :: d₃ :: d₂ :: d₁ :: d₀ :: rest => consChar (hexChar d₃ d₂ d₁ d₀) (parseString rest)
  | '\\' :: e :: rest => consChar (unescape e) (parseString rest)
  | c :: rest => consChar (if c.toNat < 32 ∨ c = '\\' then none else some c) (parseString rest)

/-- The number with the digits of `n`, from what follows them. -/
def numberOf (negative : Bool) (n : Nat) : List Char → Option (Value Lit × List Char)
  | '.' :: '0' :: rest => some (.float ⟨.fin (if negative then -n else n), rfl⟩, rest)
  | rest =>
    if negative then
      if h : 0 < n ∧ n - 1 < 2 ^ 63 then some (.neg ⟨n - 1, h.2⟩, rest) else none
    else if n < 2 ^ 64 then some (.nat (.ofNat n), rest) else none

def parseDigits (negative : Bool) (cs : List Char) : Option (Value Lit × List Char) :=
  let digits := cs.takeWhile Char.isDigit
  if digits = [] then none
  else numberOf negative (Nat.ofDigitChars 10 digits 0) (cs.dropWhile Char.isDigit)

/-- An integer, or an integer with `.0`. -/
def parseNumber : List Char → Option (Value Lit × List Char)
  | '-' :: rest => parseDigits true rest
  | cs => parseDigits false cs

mutual

/-- `depth` is the number of containers that may still be entered. -/
def parseValue : Nat → Nat → List Char → Option (Value Lit × List Char)
  | 0, _, _ => none
  | fuel + 1, depth, cs =>
    match cs with
    | 'n' :: 'u' :: 'l' :: 'l' :: rest => some (.null, rest)
    | 't' :: 'r' :: 'u' :: 'e' :: rest => some (.bool true, rest)
    | 'f' :: 'a' :: 'l' :: 's' :: 'e' :: rest => some (.bool false, rest)
    | '"' :: rest => do
      let (s, rest) ← parseString rest
      some (.str (.ofList s), rest)
    | '[' :: rest =>
      match depth, rest with
      | 0, _ => none
      | _, ']' :: rest => some (.arr [], rest)
      | depth + 1, rest => do
        let (x, rest) ← parseValue fuel depth rest
        let (xs, rest) ← parseElems fuel depth rest
        some (.arr (x :: xs), rest)
    | '\x7b' :: rest =>
      match depth, rest with
      | 0, _ => none
      | _, '\x7d' :: rest => some (.obj [], rest)
      | depth + 1, rest => do
        let (k, x, rest) ← parseField fuel depth rest
        let (xs, rest) ← parseFields fuel depth rest
        some (.obj ((k, x) :: xs), rest)
    | cs => parseNumber cs
termination_by structural fuel => fuel

/-- A key, a colon and a value. -/
def parseField : Nat → Nat → List Char → Option (String × Value Lit × List Char)
  | 0, _, _ => none
  | fuel + 1, depth, cs =>
    match cs with
    | '"' :: rest => do
      let (k, rest) ← parseString rest
      match rest with
      | ':' :: rest => do
        let (x, rest) ← parseValue fuel depth rest
        some (.ofList k, x, rest)
      | _ => none
    | _ => none

def parseElems : Nat → Nat → List Char → Option (List (Value Lit) × List Char)
  | 0, _, _ => none
  | fuel + 1, depth, cs =>
    match cs with
    | ']' :: rest => some ([], rest)
    | ',' :: rest => do
      let (x, rest) ← parseValue fuel depth rest
      let (xs, rest) ← parseElems fuel depth rest
      some (x :: xs, rest)
    | _ => none

def parseFields : Nat → Nat → List Char → Option (List (String × Value Lit) × List Char)
  | 0, _, _ => none
  | fuel + 1, depth, cs =>
    match cs with
    | '\x7d' :: rest => some ([], rest)
    | ',' :: rest => do
      let (k, x, rest) ← parseField fuel depth rest
      let (xs, rest) ← parseFields fuel depth rest
      some ((k, x) :: xs, rest)
    | _ => none

end

/-- A value and nothing behind it. -/
def parseAll (cs : List Char) : Option (Value Lit) :=
  match parseValue (2 * cs.length + 1) 127 cs with
  | some (j, []) => some j
  | _ => none

/-! ## Strings and numbers -/

theorem hexValue_hexDigit : ∀ n < 16, hexValue (hexDigit n) = some n := by decide

theorem parseString_plain {c : Char} (hquote : c ≠ '"') (hslash : c ≠ '\\') (h : ¬ c.toNat < 32)
    (rest : List Char) :
    parseString (c :: rest) = consChar (some c) (parseString rest) := by
  rw [parseString, if_neg (by simp [h, hslash])]
  · simpa using hquote
  · intro _ _ _ _ _ hc
    exact absurd hc hslash
  · intro _ _ hc
    exact absurd hc hslash

theorem hexChar_low {c : Char} (h : c.toNat < 32) :
    hexChar '0' '0' (hexDigit (c.toNat / 16)) (hexDigit (c.toNat % 16)) = some c := by
  have h₁ := hexValue_hexDigit (c.toNat / 16) (by omega)
  have h₀ := hexValue_hexDigit (c.toNat % 16) (by omega)
  have hzero : hexValue '0' = some 0 := rfl
  have hn : ((0 * 16 + 0) * 16 + c.toNat / 16) * 16 + c.toNat % 16 = c.toNat := by omega
  simp only [hexChar, hzero, h₁, h₀, Option.bind_eq_bind, Option.bind_some, hn]
  rw [if_pos (show c.toNat.isValidChar from c.valid), Char.ofNat_toNat]

theorem parseString_escapeChar (c : Char) (rest : List Char) :
    parseString (escapeChar c ++ rest) = consChar (some c) (parseString rest) := by
  unfold escapeChar
  split
  · subst_vars; rfl
  split
  · subst_vars; rfl
  split
  · subst_vars; rfl
  split
  · subst_vars; rfl
  split
  · subst_vars; rfl
  split
  · subst_vars; rfl
  split
  · subst_vars; rfl
  split
  · next hlow =>
    rw [← hexChar_low hlow]
    rfl
  · next hquote hslash _ _ _ _ _ hlow => exact parseString_plain hquote hslash hlow rest

theorem parseString_escape (s rest : List Char) :
    parseString (s.flatMap escapeChar ++ '"' :: rest) = some (s, rest) := by
  induction s with
  | nil => rfl
  | cons c s ih =>
    rw [List.flatMap_cons, List.append_assoc, parseString_escapeChar, ih]
    rfl

/-- What follows a number does not go on with it. -/
def Stops (rest : List Char) : Prop := ∀ c ∈ rest.head?, c.isDigit = false ∧ c ≠ '.'

theorem digits_split {n : Nat} {rest : List Char} (h : ∀ c ∈ rest.head?, c.isDigit = false) :
    (Nat.toDigits 10 n ++ rest).takeWhile Char.isDigit = Nat.toDigits 10 n ∧
      (Nat.toDigits 10 n ++ rest).dropWhile Char.isDigit = rest := by
  have hall : ∀ c ∈ Nat.toDigits 10 n, c.isDigit = true :=
    fun c hc => Nat.isDigit_of_mem_toDigits (by decide) (by decide) hc
  have hrest : rest.takeWhile Char.isDigit = [] ∧ rest.dropWhile Char.isDigit = rest := by
    cases rest with
    | nil => exact ⟨rfl, rfl⟩
    | cons c rest =>
      have hc := h c rfl
      simp [hc]
  rw [List.takeWhile_append_of_pos hall, List.dropWhile_append_of_pos hall, hrest.1, hrest.2]
  simp

theorem parseDigits_toDigits (negative : Bool) {n : Nat} {rest : List Char}
    (h : ∀ c ∈ rest.head?, c.isDigit = false) :
    parseDigits negative (Nat.toDigits 10 n ++ rest) = numberOf negative n rest := by
  obtain ⟨htake, hdrop⟩ := digits_split (n := n) h
  have hvalue : Nat.ofDigitChars 10 (Nat.toDigits 10 n) 0 = n :=
    Nat.ofDigitChars_toDigits (by decide) (by decide)
  rw [parseDigits, htake, hdrop, if_neg Nat.toDigits_ne_nil, hvalue]

/-- The sign is read, then the digits. -/
theorem parseNumber_printInt (z : Int) {rest : List Char}
    (h : ∀ c ∈ rest.head?, c.isDigit = false) :
    parseNumber (printInt z ++ rest) = numberOf (decide (z < 0)) z.natAbs rest := by
  cases z with
  | ofNat n =>
    have hsign : parseNumber (Nat.toDigits 10 n ++ rest) =
      parseDigits false (Nat.toDigits 10 n ++ rest) := by
      rw [parseNumber]
      intro rest' hc
      have hdigit : ∀ c ∈ Nat.toDigits 10 n, c.isDigit = true :=
        fun c hc => Nat.isDigit_of_mem_toDigits (by decide) (by decide) hc
      cases hd : Nat.toDigits 10 n with
      | nil => exact absurd hd Nat.toDigits_ne_nil
      | cons c ds =>
        rw [hd] at hc hdigit
        cases hc
        exact absurd (hdigit '-' (by simp)) (by decide)
    rw [printInt, hsign, parseDigits_toDigits false h]
    rfl
  | negSucc n =>
    show parseDigits true (Nat.toDigits 10 (n + 1) ++ rest) = _
    rw [parseDigits_toDigits true h, decide_eq_true (Int.negSucc_lt_zero n)]
    rfl

theorem numberOf_stops (negative : Bool) (n : Nat) {rest : List Char} (h : Stops rest) :
    numberOf negative n rest =
      if negative then
        if h : 0 < n ∧ n - 1 < 2 ^ 63 then some (.neg ⟨n - 1, h.2⟩, rest) else none
      else if n < 2 ^ 64 then some (.nat (.ofNat n), rest) else none := by
  rw [numberOf]
  intro rest' hc
  rw [hc] at h
  exact absurd rfl (h '.' rfl).2

theorem parseNumber_nat (n : UInt64) {rest : List Char} (h : Stops rest) :
    parseNumber (printInt n.toNat ++ rest) = some (.nat n, rest) := by
  have hlt : n.toNat < 2 ^ 64 := n.toNat_lt
  have hpos : ¬ (n.toNat : Int) < 0 := by omega
  rw [parseNumber_printInt _ fun c hc => (h c hc).1, numberOf_stops _ _ h, decide_eq_false hpos,
    Int.natAbs_natCast, if_neg (by decide), if_pos hlt, UInt64.ofNat_toNat]

theorem parseNumber_neg (n : Fin (2 ^ 63)) {rest : List Char} (h : Stops rest) :
    parseNumber (printInt (.negSucc n.val) ++ rest) = some (.neg n, rest) := by
  rw [parseNumber_printInt _ fun c hc => (h c hc).1, numberOf_stops _ _ h]
  simp

theorem parseNumber_float (x : Finite Lit) (rest : List Char) :
    parseNumber (printFloat x.1 ++ rest) = some (.float x, rest) := by
  obtain ⟨x, hx⟩ := x
  cases x with
  | nan => cases hx
  | inf s => cases hx
  | fin z =>
    have hdot : ∀ c ∈ ('.' :: '0' :: rest).head?, c.isDigit = false := by simp
    rw [printFloat, List.append_assoc]
    show parseNumber (printInt z ++ '.' :: '0' :: rest) = _
    have hz : (if decide (z < 0) = true then -(z.natAbs : Int) else z.natAbs) = z := by
      split
      · next h =>
        have := of_decide_eq_true h
        omega
      · next h =>
        have : ¬ z < 0 := fun hc => h (decide_eq_true hc)
        omega
    rw [parseNumber_printInt z hdot, numberOf]
    simp only [hz]

/-! ## Values -/

mutual

/-- Fuel for a value. -/
def size : Value Lit → Nat
  | .arr xs => sizeElems xs + 1
  | .obj fields => sizeFields fields + 1
  | _ => 1

def sizeElems : List (Value Lit) → Nat
  | [] => 1
  | x :: xs => size x + sizeElems xs + 1

def sizeFields : List (String × Value Lit) → Nat
  | [] => 1
  | (_, x) :: xs => size x + sizeFields xs + 2

end

/-- A number, which starts with none of the characters of another value. -/
theorem parseValue_number {cs : List Char} (h : ∀ c ∈ cs.head?, c = '-' ∨ c.isDigit = true)
    (hne : cs ≠ []) (fuel depth : Nat) : parseValue (fuel + 1) depth cs = parseNumber cs := by
  cases cs with
  | nil => exact absurd rfl hne
  | cons c cs =>
    have hc := h c rfl
    have hnot : ∀ x, (x = '-' ∨ x.isDigit = true) → x ≠ 'n' ∧ x ≠ 't' ∧ x ≠ 'f' ∧
      x ≠ '"' ∧ x ≠ '[' ∧ x ≠ '\x7b' := by
      intro x hx
      refine ⟨?_, ?_, ?_, ?_, ?_, ?_⟩ <;> (intro hc; subst hc; revert hx; decide)
    obtain ⟨h₁, h₂, h₃, h₄, h₅, h₆⟩ := hnot c hc
    rw [parseValue]
    all_goals
      intro rest heq
      simp_all

theorem parseValue_arr {cs : List Char} (h : cs.head? ≠ some ']') (fuel depth : Nat) :
    parseValue (fuel + 1) (depth + 1) ('[' :: cs) = (parseValue fuel depth cs).bind fun p =>
      (parseElems fuel depth p.2).bind fun q => some (.arr (p.1 :: q.1), q.2) := by
  rw [parseValue]
  · rfl
  · intro rest hc
    rw [hc] at h
    exact h rfl

theorem parseValue_obj {cs : List Char} (h : cs.head? ≠ some '\x7d') (fuel depth : Nat) :
    parseValue (fuel + 1) (depth + 1) ('\x7b' :: cs) = (parseField fuel depth cs).bind fun p =>
      (parseFields fuel depth p.2.2).bind fun q => some (.obj ((p.1, p.2.1) :: q.1), q.2) := by
  rw [parseValue]
  · rfl
  · intro rest hc
    rw [hc] at h
    exact h rfl

theorem printInt_head (z : Int) : ∃ c cs, printInt z = c :: cs ∧ (c = '-' ∨ c.isDigit = true) := by
  cases z with
  | ofNat n =>
    cases hd : Nat.toDigits 10 n with
    | nil => exact absurd hd Nat.toDigits_ne_nil
    | cons c ds =>
      refine ⟨c, ds, hd,
        .inr (Nat.isDigit_of_mem_toDigits (by decide) (by decide) (?_ : c ∈ Nat.toDigits 10 n))⟩
      rw [hd]
      exact List.mem_cons_self
  | negSucc n => exact ⟨'-', _, rfl, .inl rfl⟩

/-- No value starts like the end of an array. -/
theorem printValue_head (j : Value Lit) : ∃ c cs, printValue j = c :: cs ∧ c ≠ ']' := by
  have hint : ∀ z tail, ∃ c cs, printInt z ++ tail = c :: cs ∧ c ≠ ']' := by
    intro z tail
    obtain ⟨c, cs, heq, hc⟩ := printInt_head z
    refine ⟨c, cs ++ tail, by rw [heq]; rfl, ?_⟩
    intro he
    subst he
    revert hc
    decide
  cases j with
  | null => exact ⟨_, _, rfl, by decide⟩
  | bool b => cases b <;> exact ⟨_, _, rfl, by decide⟩
  | nat n => simpa [printValue] using hint n.toNat []
  | neg n => simpa [printValue] using hint (.negSucc n.val) []
  | float x =>
    obtain ⟨x, hx⟩ := x
    cases x with
    | nan => cases hx
    | inf s => cases hx
    | fin z => exact hint z ['.', '0']
  | str s => exact ⟨_, _, rfl, by decide⟩
  | arr xs => cases xs <;> exact ⟨_, _, rfl, by decide⟩
  | obj fields => cases fields <;> exact ⟨_, _, rfl, by decide⟩

theorem stops_elems (xs : List (Value Lit)) (rest : List Char) : Stops (printElems xs ++ rest) := by
  cases xs <;> simp [printElems, Stops]

theorem stops_fields (xs : List (String × Value Lit)) (rest : List Char) :
    Stops (printFields xs ++ rest) := by
  rcases xs with _ | ⟨⟨k, x⟩, xs⟩ <;> simp [printFields, Stops]

theorem parseNumber_value {cs rest : List Char} {j : Value Lit}
    (h : parseNumber cs = some (j, rest))
    (hhead : ∃ c cs', cs = c :: cs' ∧ (c = '-' ∨ c.isDigit = true)) (fuel depth : Nat) :
    parseValue (fuel + 1) depth cs = some (j, rest) := by
  obtain ⟨c, cs', rfl, hc⟩ := hhead
  rw [parseValue_number (by simpa using hc) (by simp), h]

theorem parseField_of {k : String} {x : Value Lit} {cs rest : List Char} {fuel depth : Nat}
    (h : parseValue fuel depth cs = some (x, rest)) :
    parseField (fuel + 1) depth (printString k ++ ':' :: cs) = some (k, x, rest) := by
  rw [printString, List.cons_append, List.append_assoc, parseField]
  simp only [List.singleton_append, parseString_escape, Option.bind_eq_bind, Option.bind_some, h,
    String.ofList_toList]

theorem size_pos (j : Value Lit) : 0 < size j := by
  cases j <;> simp [size]

mutual

/-- A printed value is read, and what follows it is left. -/
theorem parseValue_printValue (j : Value Lit) (fuel depth : Nat) (rest : List Char)
    (hfuel : size j ≤ fuel) (hdepth : j.depth ≤ depth) (hrest : Stops rest) :
    parseValue fuel depth (printValue j ++ rest) = some (j, rest) := by
  match j, fuel with
  | j, 0 =>
    have := size_pos j
    omega
  | .null, fuel + 1 => rfl
  | .bool true, fuel + 1 => rfl
  | .bool false, fuel + 1 => rfl
  | .nat n, fuel + 1 =>
    apply parseNumber_value (parseNumber_nat n hrest)
    obtain ⟨c, cs, heq, hc⟩ := printInt_head n.toNat
    exact ⟨c, cs ++ rest, by rw [heq]; rfl, hc⟩
  | .neg n, fuel + 1 =>
    apply parseNumber_value (parseNumber_neg n hrest)
    obtain ⟨c, cs, heq, hc⟩ := printInt_head (.negSucc n.val)
    exact ⟨c, cs ++ rest, by rw [heq]; rfl, hc⟩
  | .float ⟨.fin z, hz⟩, fuel + 1 =>
    apply parseNumber_value (parseNumber_float ⟨.fin z, hz⟩ rest)
    obtain ⟨c, cs, heq, hc⟩ := printInt_head z
    exact ⟨c, cs ++ ['.', '0'] ++ rest, by rw [printFloat, heq]; rfl, hc⟩
  | .str s, fuel + 1 =>
    show parseValue (fuel + 1) depth ('"' :: (s.toList.flatMap escapeChar ++ ['"'] ++ rest)) = _
    rw [List.append_assoc, parseValue]
    simp only [List.singleton_append, parseString_escape, Option.bind_eq_bind, Option.bind_some,
      String.ofList_toList]
  | .arr [], fuel + 1 =>
    cases depth with
    | zero => simp at hdepth
    | succ depth => rfl
  | .arr (x :: xs), fuel + 1 =>
    cases depth with
    | zero => simp at hdepth
    | succ depth =>
      simp only [size, sizeElems] at hfuel
      simp only [Json.depth_arr, Json.depthList_cons] at hdepth
      have hx := parseValue_printValue x fuel depth (printElems xs ++ rest) (by omega) (by omega)
        (stops_elems xs rest)
      have hxs := parseElems_printElems xs fuel depth rest (by omega) (by omega)
      obtain ⟨c, cs, heq, hc⟩ := printValue_head x
      have hhead : (printValue x ++ (printElems xs ++ rest)).head? ≠ some ']' := by
        rw [heq]
        simpa using hc
      rw [printValue, List.cons_append, List.append_assoc, parseValue_arr hhead]
      simp only [hx, hxs, Option.bind_some]
  | .obj [], fuel + 1 =>
    cases depth with
    | zero => simp at hdepth
    | succ depth => rfl
  | .obj ((k, x) :: xs), fuel + 1 =>
    cases depth with
    | zero => simp at hdepth
    | succ depth =>
      simp only [size, sizeFields] at hfuel
      simp only [Json.depth_obj, Json.depthFields_cons] at hdepth
      obtain ⟨fuel, rfl⟩ : ∃ n, fuel = n + 1 := ⟨fuel - 1, by have := size_pos x; omega⟩
      have hx := parseValue_printValue x fuel depth (printFields xs ++ rest) (by omega) (by omega)
        (stops_fields xs rest)
      have hxs := parseFields_printFields xs (fuel + 1) depth rest (by omega) (by omega)
      have hhead : (printString k ++ ':' :: (printValue x ++ (printFields xs ++ rest))).head? ≠
        some '\x7d' := by
        simp [printString]
      rw [printValue, List.cons_append, List.append_assoc, List.cons_append, List.append_assoc,
        parseValue_obj hhead]
      simp only [parseField_of hx, hxs, Option.bind_some]

theorem parseElems_printElems (xs : List (Value Lit)) (fuel depth : Nat) (rest : List Char)
    (hfuel : sizeElems xs ≤ fuel) (hdepth : Json.depthList xs ≤ depth) :
    parseElems fuel depth (printElems xs ++ rest) = some (xs, rest) := by
  match xs, fuel with
  | [], 0 => simp [sizeElems] at hfuel
  | [], fuel + 1 => rfl
  | x :: xs, 0 => simp [sizeElems] at hfuel
  | x :: xs, fuel + 1 =>
    rw [sizeElems] at hfuel
    rw [Json.depthList_cons] at hdepth
    have hx := parseValue_printValue x fuel depth (printElems xs ++ rest) (by omega) (by omega)
      (stops_elems xs rest)
    have hxs := parseElems_printElems xs fuel depth rest (by omega) (by omega)
    rw [printElems, List.cons_append, List.append_assoc, parseElems]
    simp only [hx, hxs, Option.bind_eq_bind, Option.bind_some]

theorem parseFields_printFields (xs : List (String × Value Lit)) (fuel depth : Nat)
    (rest : List Char) (hfuel : sizeFields xs ≤ fuel) (hdepth : Json.depthFields xs ≤ depth) :
    parseFields fuel depth (printFields xs ++ rest) = some (xs, rest) := by
  match xs, fuel with
  | [], 0 => simp [sizeFields] at hfuel
  | [], fuel + 1 => rfl
  | (k, x) :: xs, 0 => simp [sizeFields] at hfuel
  | (k, x) :: xs, 1 =>
    rw [sizeFields] at hfuel
    have := size_pos x
    omega
  | (k, x) :: xs, fuel + 2 =>
    rw [sizeFields] at hfuel
    rw [Json.depthFields_cons] at hdepth
    have hx := parseValue_printValue x fuel depth (printFields xs ++ rest) (by omega) (by omega)
      (stops_fields xs rest)
    have hxs := parseFields_printFields xs (fuel + 1) depth rest (by omega) (by omega)
    rw [printFields, List.cons_append, List.append_assoc, List.cons_append,
      List.append_assoc, parseFields]
    simp only [parseField_of hx, hxs, Option.bind_eq_bind, Option.bind_some]

end

theorem size_le_of_one {j : Value Lit} (h : size j = 1) : size j ≤ 2 * (printValue j).length := by
  obtain ⟨c, cs, heq, _⟩ := printValue_head j
  rw [h, heq, List.length_cons]
  omega

mutual

/-- The text is long enough for the fuel. -/
theorem size_le (j : Value Lit) : size j ≤ 2 * (printValue j).length := by
  match j with
  | .null | .bool _ | .nat _ | .neg _ | .float _ | .str _ => exact size_le_of_one rfl
  | .arr [] => simp [size, sizeElems, printValue]
  | .arr (x :: xs) =>
    have hx := size_le x
    have hxs := sizeElems_le xs
    simp only [size, sizeElems, printValue, List.length_cons, List.length_append]
    omega
  | .obj [] => simp [size, sizeFields, printValue]
  | .obj ((k, x) :: xs) =>
    have hx := size_le x
    have hxs := sizeFields_le xs
    simp only [size, sizeFields, printValue, List.length_cons, List.length_append]
    omega

theorem sizeElems_le (xs : List (Value Lit)) : sizeElems xs ≤ 2 * (printElems xs).length := by
  match xs with
  | [] => simp [sizeElems, printElems]
  | x :: xs =>
    have hx := size_le x
    have hxs := sizeElems_le xs
    simp only [sizeElems, printElems, List.length_cons, List.length_append]
    omega

theorem sizeFields_le (xs : List (String × Value Lit)) :
    sizeFields xs ≤ 2 * (printFields xs).length := by
  match xs with
  | [] => simp [sizeFields, printFields]
  | (k, x) :: xs =>
    have hx := size_le x
    have hxs := sizeFields_le xs
    simp only [sizeFields, printFields, List.length_cons, List.length_append]
    omega

end

/-! ## The text layer -/

/-- JSON over `Lit`, in UTF-8. An integer is read back as it was. -/
def jsonText : Text Lit where
  print j := (printValue j).flatMap String.utf8EncodeChar
  parse bs := bs.toByteArray.utf8Decode?.bind fun cs => parseAll cs.toList
  reread := id

mutual

theorem map_id {φ : Type} (j : Json φ) : j.map id = j := by
  match j with
  | .null | .bool _ | .nat _ | .neg _ | .float _ | .str _ => rfl
  | .arr xs => rw [Json.map_arr, mapList_id xs]
  | .obj fields => rw [Json.map_obj, mapFields_id fields]

theorem mapList_id {φ : Type} (xs : List (Json φ)) : Json.mapList id xs = xs := by
  match xs with
  | [] => rfl
  | x :: xs => rw [Json.mapList_cons, map_id x, mapList_id xs]

theorem mapFields_id {φ : Type} (xs : List (String × Json φ)) : Json.mapFields id xs = xs := by
  match xs with
  | [] => rfl
  | (k, x) :: xs => rw [Json.mapFields_cons, map_id x, mapFields_id xs]

end

theorem jsonText_lawful : jsonText.Lawful := by
  intro j hdepth
  have hsize := size_le j
  have hparse := parseValue_printValue j (2 * (printValue j).length + 1) 127 [] (by omega) hdepth
    (by simp [Stops])
  have hutf8 : ((printValue j).flatMap String.utf8EncodeChar).toByteArray.utf8Decode? =
    some (printValue j).toArray :=
    List.utf8Decode?_utf8Encode
  rw [List.append_nil] at hparse
  show ((printValue j).flatMap String.utf8EncodeChar).toByteArray.utf8Decode?.bind _ =
    some (j.map id)
  rw [hutf8, map_id, Option.bind_some, List.toList_toArray, parseAll, hparse]

/-- JSON that is stored as it is. -/
def plain : Codec Lit := ⟨jsonText, id, some⟩

theorem plain_lawful : plain.Lawful := ⟨jsonText_lawful, fun _ => rfl⟩

end Tesseract.L3.Serde
