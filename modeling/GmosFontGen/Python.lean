import Mathlib

/-! The Python built-ins `gmos-display-fontgen.py` leans on, over `List Char` so that the
kernel can run them: `str.startswith`, `str.split()`, `int(text, base)`, list indexing
and dictionary assignment. A raised exception is an `Except` error naming its class; the
script's top level catches every one of them and ends the run. -/
namespace GmosFontGen.Python

/-- The exceptions a malformed font file raises inside the tool. -/
inductive PyError where
  /-- `next()` on an exhausted line iterator. -/
  | stopIteration
  /-- `int()` on text that is not a literal in the base. -/
  | valueError (literal : String) (base : Nat)
  /-- A list index out of range. -/
  | indexError
  /-- A dictionary lookup of an absent key, with the key as `str(e)` prints it. -/
  | keyError (key : String)
  /-- A local variable read before any assignment. -/
  | unboundLocal (name : String)
  deriving DecidableEq, Repr

instance decEqExcept [DecidableEq α] : DecidableEq (Except PyError α)
  | .ok a, .ok b => decidable_of_iff (a = b) ⟨congrArg _, fun same => by cases same; rfl⟩
  | .error a, .error b => decidable_of_iff (a = b) ⟨congrArg _, fun same => by cases same; rfl⟩
  | .ok _, .error _ => isFalse nofun
  | .error _, .ok _ => isFalse nofun

@[simp] theorem ok_bind (a : α) (f : α → Except PyError β) : (Except.ok a >>= f) = f a := rfl

@[simp] theorem error_bind (e : PyError) (f : α → Except PyError β) :
    (Except.error e >>= f) = Except.error e := rfl

@[simp] theorem map_ok (f : α → β) (a : α) : (f <$> Except.ok a : Except PyError β) = .ok (f a) :=
  rfl

@[simp] theorem map_error (f : α → β) (e : PyError) :
    (f <$> Except.error e : Except PyError β) = .error e := rfl

theorem bind_eq_ok {x : Except PyError α} {f : α → Except PyError β} {b : β} :
    x >>= f = .ok b ↔ ∃ a, x = .ok a ∧ f a = .ok b := by
  cases x <;> simp

theorem eq_ok_of_toOption {x : Except PyError α} {a : α} (same : x.toOption = some a) :
    x = .ok a := by
  cases x <;> cases same
  rfl

/-- `str.isspace` for one character: the ASCII separators and the Unicode spaces. -/
def isSpace (c : Char) : Bool :=
  c = ' ' || ('\t' ≤ c && c ≤ '\r') || ('\x1c' ≤ c && c ≤ '\x1f') || c = '\x85' ||
    c = '\xa0' || c = '\u1680' || ('\u2000' ≤ c && c ≤ '\u200a') || c = '\u2028' ||
    c = '\u2029' || c = '\u202f' || c = '\u205f' || c = '\u3000'

/-- `line.startswith(pre)`. -/
def startswith (line pre : String) : Bool := pre.data.isPrefixOf line.data

/-- The words of a line, `word` holding the current word's characters in reverse. -/
def splitWords : List Char → List Char → List (List Char)
  | [], word => if word.isEmpty then [] else [word.reverse]
  | c :: cs, word =>
    if isSpace c then
      if word.isEmpty then splitWords cs [] else word.reverse :: splitWords cs []
    else splitWords cs (c :: word)

/-- `line.split()`: the maximal runs of non-space characters. -/
def split (line : String) : List String := (splitWords line.data []).map String.mk

/-- `text.strip()` on characters, as `int()` applies it first. -/
def strip (chars : List Char) : List Char :=
  ((chars.dropWhile isSpace).reverse.dropWhile isSpace).reverse

/-- The value of one ASCII digit in `base`, if it is a digit of that base. -/
def digitValue (base : Nat) (c : Char) : Option Nat :=
  let v := if '0' ≤ c ∧ c ≤ '9' then c.toNat - '0'.toNat
    else if 'a' ≤ c ∧ c ≤ 'z' then c.toNat - 'a'.toNat + 10
    else if 'A' ≤ c ∧ c ≤ 'Z' then c.toNat - 'A'.toNat + 10
    else base
  if v < base then some v else none

/-- The digits after the first, each optionally preceded by one underscore, read onto
`acc`. -/
def digitsFrom (base acc : Nat) : List Char → Option Nat
  | [] => some acc
  | '_' :: c :: cs => (digitValue base c).bind fun d => digitsFrom base (base * acc + d) cs
  | c :: cs => (digitValue base c).bind fun d => digitsFrom base (base * acc + d) cs

/-- A nonempty run of digits with single underscores between them. -/
def digits (base : Nat) : List Char → Option Nat
  | [] => none
  | c :: cs => (digitValue base c).bind fun d => digitsFrom base d cs

/-- Base 16 accepts a `0x` or `0X` mark, and one underscore right after it. -/
def skipHexMark : List Char → List Char
  | '0' :: x :: cs =>
    if x = 'x' ∨ x = 'X' then (match cs with | '_' :: ds => ds | ds => ds) else '0' :: x :: cs
  | cs => cs

/-- The magnitude after the sign. -/
def magnitude (base : Nat) (chars : List Char) : Option Nat :=
  digits base (if base = 16 then skipHexMark chars else chars)

/-- A stripped literal: an optional sign, then the magnitude. -/
def literalValue (base : Nat) : List Char → Option Int
  | '-' :: cs => (magnitude base cs).map fun n => -(n : Int)
  | '+' :: cs => (magnitude base cs).map fun n => (n : Int)
  | cs => (magnitude base cs).map fun n => (n : Int)

/-- `int(text, base)` for the bases the tool uses, 10 and 16. Unicode decimal digits,
which CPython maps to ASCII first, are not modelled. -/
def pyInt (base : Nat) (text : String) : Except PyError Int :=
  match literalValue base (strip text.data) with
  | some n => .ok n
  | none => .error (.valueError text base)

/-- `"%d" % n`. -/
def pyDecimal (n : Int) : List Char :=
  if n < 0 then '-' :: Nat.toDigits 10 n.natAbs else Nat.toDigits 10 n.toNat

/-- `"0x%02X" % n`: upper-case hexadecimal digits, at least two of them. -/
def pyHexByte (n : Nat) : List Char :=
  let digits := (Nat.toDigits 16 n).map Char.toUpper
  '0' :: 'x' :: (List.replicate (2 - digits.length) '0' ++ digits)

/-- `xs[i]`, a negative index counting from the end. -/
def pyIndex (xs : List α) (i : Int) : Except PyError α :=
  match (if 0 ≤ i then xs[i.toNat]?
      else if 0 ≤ xs.length + i then xs[(xs.length + i).toNat]? else none) with
  | some x => .ok x
  | none => .error .indexError

/-- `d[key] = value` on a dictionary keyed by Python integers. Lookups are the only
other use the tool makes of its dictionaries, so a dictionary is its lookup function. -/
def setItem (d : Int → Option α) (key : Int) (value : α) : Int → Option α :=
  fun k => if k = key then some value else d k

@[simp] theorem setItem_self (d : Int → Option α) (key : Int) (value : α) :
    setItem d key value key = some value := by simp [setItem]

@[simp] theorem setItem_of_ne {d : Int → Option α} {k key : Int} (value : α) (ne : k ≠ key) :
    setItem d key value k = d k := by simp [setItem, ne]

@[simp] theorem setItem_setItem_self (d : Int → Option α) (key : Int) (v₁ v₂ : α) :
    setItem (setItem d key v₁) key v₂ = setItem d key v₂ := by
  funext k
  by_cases same : k = key <;> simp [setItem, same]

theorem setItem_comm (d : Int → Option α) {k₁ k₂ : Int} (ne : k₁ ≠ k₂) (v₁ v₂ : α) :
    setItem (setItem d k₁ v₁) k₂ v₂ = setItem (setItem d k₂ v₂) k₁ v₁ := by
  funext k
  by_cases h₂ : k = k₂
  · subst h₂; simp [setItem, Ne.symm ne]
  · simp [setItem, h₂]

/-- Stripping keeps a text that starts with two characters other than spaces starting with
them. -/
theorem exists_strip_eq_cons_cons {a b : Char} (cs : List Char) (first : isSpace a = false)
    (second : isSpace b = false) : ∃ t, strip (a :: b :: cs) = a :: b :: t := by
  have front : (a :: b :: cs).dropWhile isSpace = a :: b :: cs := by simp [List.dropWhile, first]
  have back : [b, a].dropWhile isSpace = [b, a] := by simp [List.dropWhile, second]
  rw [strip, front, List.reverse_cons, List.reverse_cons, List.append_assoc,
    List.singleton_append, List.dropWhile_append, back]
  split
  · exact ⟨[], by simp⟩
  · exact ⟨(cs.reverse.dropWhile isSpace).reverse, by simp⟩

theorem pyIndex_of_lt {xs : List α} {i : Nat} (lt : i < xs.length) :
    pyIndex xs i = .ok xs[i] := by
  simp [pyIndex, lt, Int.ofNat_nonneg]

theorem pyIndex_of_le {xs : List α} {i : Nat} (le : xs.length ≤ i) :
    pyIndex xs i = .error .indexError := by
  simp [pyIndex, List.getElem?_eq_none le, Int.ofNat_nonneg]

/-- Evaluating a list comprehension succeeds exactly when every element does. -/
theorem mapM_eq_ok {f : α → Except PyError β} {g : α → β} {xs : List α}
    (each : ∀ x ∈ xs, f x = .ok (g x)) : xs.mapM f = .ok (xs.map g) := by
  induction xs with
  | nil => rfl
  | cons x xs ih =>
    simp only [List.mem_cons, forall_eq_or_imp] at each
    rw [List.mapM_cons, each.1, ih each.2]
    rfl

/-- A list comprehension that succeeds holds, in order, the value of each element. -/
theorem mapM_eq_ok_values [Inhabited β] {f : α → Except PyError β} :
    ∀ {xs : List α} {ys : List β}, xs.mapM f = .ok ys →
      (∀ x ∈ xs, f x = .ok ((f x).toOption.getD default)) ∧
        ys = xs.map fun x => (f x).toOption.getD default
  | [], ys, ran => by cases ran; simp
  | x :: xs, ys, ran => by
    rw [List.mapM_cons] at ran
    rcases fx : f x with e | b
    · rw [fx] at ran
      cases ran
    rcases rest : xs.mapM f with e | bs
    · rw [fx, rest] at ran
      cases ran
    rw [fx, rest] at ran
    cases ran
    obtain ⟨each, rfl⟩ := mapM_eq_ok_values rest
    simp only [List.mem_cons, forall_eq_or_imp, List.map_cons, fx]
    exact ⟨⟨rfl, each⟩, rfl⟩

/-- Indexing raises nothing but `IndexError`. -/
theorem pyIndex_error {xs : List α} {i : Int} {e : PyError} (raised : pyIndex xs i = .error e) :
    e = .indexError := by
  unfold pyIndex at raised
  split at raised <;> cases raised
  rfl

/-- A list comprehension raises only what one of its elements raises. -/
theorem exists_of_mapM_eq_error {f : α → Except PyError β} {e : PyError} :
    ∀ {xs : List α}, xs.mapM f = .error e → ∃ x ∈ xs, f x = .error e
  | [], raised => by cases raised
  | x :: xs, raised => by
    rw [List.mapM_cons] at raised
    rcases fx : f x with e' | b
    · rw [fx] at raised
      exact ⟨x, List.mem_cons_self x xs, fx.trans (by simpa using raised)⟩
    · rw [fx, ok_bind] at raised
      rcases rest : xs.mapM f with e' | bs
      · rw [rest] at raised
        obtain ⟨y, mem, fy⟩ := exists_of_mapM_eq_error (rest.trans raised)
        exact ⟨y, List.mem_cons_of_mem x mem, fy⟩
      · rw [rest] at raised
        cases raised

/-- A list comprehension whose elements can raise only `err` raises it when one of them
raises. -/
theorem mapM_eq_error {f : α → Except PyError β} {err : PyError} :
    ∀ {xs : List α}, (∀ x ∈ xs, ∀ e, f x = .error e → e = err) →
      (∃ x ∈ xs, ∃ e, f x = .error e) → xs.mapM f = .error err
  | [], _, failing => by simp at failing
  | x :: xs, only, failing => by
    simp only [List.mem_cons, forall_eq_or_imp, exists_eq_or_imp] at only failing
    rw [List.mapM_cons]
    rcases fx : f x with e | b
    · rw [only.1 e fx]; rfl
    · rw [ok_bind, mapM_eq_error only.2 (failing.resolve_left fun ⟨e, fe⟩ => by simp [fx] at fe)]
      rfl

example : split "BBX  8 6 0 -1" = ["BBX", "8", "6", "0", "-1"] := by decide
example : pyInt 16 " 0x_3c " = .ok 60 ∧ pyInt 10 "-1_0" = .ok (-10) := by decide
example : pyInt 16 "ENDCHAR" = .error (.valueError "ENDCHAR" 16) := by decide
example : pyDecimal (-12) = "-12".data ∧ pyHexByte 7 = "0x07".data ∧
    pyHexByte 0x3C = "0x3C".data ∧ pyHexByte 0x1A5 = "0x1A5".data := by decide

end GmosFontGen.Python
