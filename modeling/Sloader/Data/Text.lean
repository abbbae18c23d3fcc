import Mathlib.Algebra.Group.Nat.Defs
import Mathlib.Data.Nat.Init

namespace Sloader.Data.Text

/-! Text files as bytes: the lines that a reader with universal newlines sees,
fields between blanks, and hexadecimal numerals. -/

def newline : UInt8 := 10

def carriageReturn : UInt8 := 13

def blank : UInt8 := 32

/-- No byte that a reader of lines and fields takes for a separator. -/
def Plain (text : List UInt8) : Prop :=
  blank ∉ text ∧ newline ∉ text ∧ carriageReturn ∉ text

instance (text : List UInt8) : Decidable (Plain text) :=
  inferInstanceAs (Decidable (_ ∧ _ ∧ _))

/-- The lines of a text, each with a newline at its end.  A carriage return ends a
line too, and takes the newline that may follow it along. -/
def readlines (afterReturn : Bool) : List UInt8 → List (List UInt8)
  | [] => []
  | byte :: rest =>
      if byte = carriageReturn then [newline] :: readlines true rest
      else if byte = newline then
        if afterReturn then readlines false rest else [newline] :: readlines false rest
      else
        match readlines false rest with
        | [] => [[byte]]
        | line :: more => (byte :: line) :: more

theorem readlines_ne_nil (byte : UInt8) (rest : List UInt8) : readlines false (byte :: rest) ≠ [] := by
  rw [readlines]
  split
  · exact List.cons_ne_nil _ _
  · split
    · exact List.cons_ne_nil _ _
    · split <;> exact List.cons_ne_nil _ _

theorem readlines_append (afterReturn : Bool) (before after : List UInt8) :
    readlines afterReturn (before ++ newline :: after) =
      readlines afterReturn (before ++ [newline]) ++ readlines false after := by
  induction before generalizing afterReturn with
  | nil =>
      have distinct : newline ≠ carriageReturn := by decide
      cases afterReturn with
      | false => simp [readlines, distinct]
      | true => simp [readlines, distinct]
  | cons byte rest ih =>
      simp only [List.cons_append, readlines, ih]
      split
      · rfl
      · split
        · split <;> rfl
        · cases first : readlines false (rest ++ [newline]) with
          | nil =>
              cases rest with
              | nil => exact absurd first (readlines_ne_nil _ _)
              | cons head tail => exact absurd first (readlines_ne_nil _ _)
          | cons line more => rfl

theorem readlines_flatMap (texts : List (List UInt8)) :
    readlines false (texts.flatMap (· ++ [newline])) =
      texts.flatMap fun text => readlines false (text ++ [newline]) := by
  induction texts with
  | nil => rfl
  | cons text rest ih =>
      rw [List.flatMap_cons, List.flatMap_cons, List.append_assoc, List.singleton_append, readlines_append, ih]

theorem readlines_single {text : List UInt8} (noNewline : newline ∉ text) (noReturn : carriageReturn ∉ text) :
    readlines false (text ++ [newline]) = [text ++ [newline]] := by
  induction text with
  | nil => decide
  | cons byte rest ih =>
      rw [List.mem_cons, not_or] at noNewline noReturn
      rw [List.cons_append, readlines, if_neg (Ne.symm noReturn.1), if_neg (Ne.symm noNewline.1),
        ih noNewline.2 noReturn.2]

theorem readlines_bytes {afterReturn : Bool} {text line : List UInt8} (member : line ∈ readlines afterReturn text) :
    newline ∉ line.dropLast ∧ carriageReturn ∉ line := by
  have noReturn : carriageReturn ∉ [newline] := by decide
  induction text generalizing afterReturn line with
  | nil => exact absurd member List.not_mem_nil
  | cons byte rest ih =>
      rw [readlines] at member
      split at member
      · rcases List.mem_cons.mp member with rfl | later
        · exact ⟨List.not_mem_nil, noReturn⟩
        · exact ih later
      · rename_i notReturn
        split at member
        · split at member
          · exact ih member
          · rcases List.mem_cons.mp member with rfl | later
            · exact ⟨List.not_mem_nil, noReturn⟩
            · exact ih later
        · rename_i notNewline
          cases following : readlines false rest with
          | nil =>
              rw [following] at member
              rw [List.mem_singleton.mp member]
              exact ⟨List.not_mem_nil, by simpa using Ne.symm notReturn⟩
          | cons first more =>
              rw [following] at member
              rcases List.mem_cons.mp member with rfl | later
              · obtain ⟨inner, whole⟩ := ih (following ▸ List.mem_cons_self)
                refine ⟨?_, by simpa [whole] using Ne.symm notReturn⟩
                cases first with
                | nil => exact List.not_mem_nil
                | cons head tail => simpa [inner] using Ne.symm notNewline
              · exact ih (following ▸ List.mem_cons_of_mem first later)

theorem splitOn_head {separator : UInt8} {text field : List UInt8} {others : List (List UInt8)}
    (fields : text.splitOn separator = field :: others) : separator ∉ field := by
  have whole : ∃ rest, text = field ++ rest := by
    have joined := @List.intercalate_splitOn _ text _ _ separator
    rw [fields] at joined
    cases others with
    | nil => exact ⟨[], by simpa using joined.symm⟩
    | cons next more =>
        rw [List.intercalate_cons_cons, List.append_assoc] at joined
        exact ⟨_, joined.symm⟩
  obtain ⟨rest, rfl⟩ := whole
  intro member
  obtain ⟨before, after, rfl, first⟩ := List.eq_append_cons_of_mem member
  rw [List.append_assoc, List.cons_append, List.splitOn_append_cons_self_of_not_mem first] at fields
  have same := congrArg List.length (List.cons.inj fields).1
  simp at same

/-- The first of several fields of a line has nothing in it that separates. -/
theorem plain_of_readlines {afterReturn : Bool} {text line field next : List UInt8} {others : List (List UInt8)}
    (member : line ∈ readlines afterReturn text) (fields : line.splitOn blank = field :: next :: others) :
    Plain field := by
  obtain ⟨inner, whole⟩ := readlines_bytes member
  have joined := @List.intercalate_splitOn _ line _ _ blank
  rw [fields, List.intercalate_cons_cons, List.append_assoc] at joined
  rw [← joined, List.dropLast_append_of_ne_nil (by simp)] at inner
  rw [← joined] at whole
  exact ⟨splitOn_head fields, fun bad => inner (List.mem_append_left _ bad),
    fun bad => whole (List.mem_append_left _ bad)⟩

def hexDigit (value : Nat) : UInt8 :=
  UInt8.ofNat (if value < 10 then 48 + value else 55 + value)

def hexValue (byte : UInt8) : Option Nat :=
  if 48 ≤ byte ∧ byte ≤ 57 then some (byte.toNat - 48)
  else if 65 ≤ byte ∧ byte ≤ 70 then some (byte.toNat - 55)
  else if 97 ≤ byte ∧ byte ≤ 102 then some (byte.toNat - 87)
  else none

/-- Digits, with single underscores between them. -/
def readDigits (digitNext : Bool) (value : Nat) : List UInt8 → Option Nat
  | [] => if digitNext then none else some value
  | byte :: rest =>
      match hexValue byte with
      | some digit => readDigits false (16 * value + digit) rest
      | none => if byte = 95 ∧ digitNext = false then readDigits true value rest else none

/-- The digits may follow `0x` or `0X`, and then start with an underscore. -/
def readNumeral (text : List UInt8) : Option Nat :=
  if text.take 2 = [48, 120] ∨ text.take 2 = [48, 88] then
    let digits := text.drop 2
    readDigits true 0 (if digits.head? = some 95 then digits.tail else digits)
  else readDigits true 0 text

def isSpace (byte : UInt8) : Bool :=
  byte == blank || (9 ≤ byte && byte ≤ 13)

def strip (text : List UInt8) : List UInt8 :=
  ((text.dropWhile isSpace).reverse.dropWhile isSpace).reverse

/-- `int(text, 16)` of an ASCII text, with `none` for `ValueError`.  In other texts,
Python also takes the digits and the blanks that Unicode has. -/
def int (text : List UInt8) : Option Int :=
  let text := strip text
  if text.head? = some 45 then (readNumeral text.tail).map fun value => -(value : Int)
  else if text.head? = some 43 then (readNumeral text.tail).map Int.ofNat
  else (readNumeral text).map Int.ofNat

theorem hexValue_hexDigit : ∀ value < 16, hexValue (hexDigit value) = some value := by
  decide

theorem hexDigit_bytes : ∀ value < 16, isSpace (hexDigit value) = false ∧ hexDigit value ≠ 95 := by
  decide

def ofDigits (value : Nat) (digits : List Nat) : Nat :=
  digits.foldl (16 * · + ·) value

theorem readDigits_map {digits : List Nat} (small : ∀ digit ∈ digits, digit < 16) (value : Nat) :
    readDigits false value (digits.map hexDigit) = some (ofDigits value digits) := by
  induction digits generalizing value with
  | nil => rfl
  | cons digit rest ih =>
      have found := hexValue_hexDigit digit (small digit List.mem_cons_self)
      simp only [List.map_cons, readDigits, found]
      exact ih (fun other member => small other (List.mem_cons_of_mem digit member)) (16 * value + digit)

/-- The last `width` digits of a number, the most significant first. -/
def lastDigits (width number : Nat) : List Nat :=
  (List.range width).map fun index => number / 16 ^ (width - 1 - index) % 16

theorem lastDigits_small {width number digit : Nat} (member : digit ∈ lastDigits width number) : digit < 16 := by
  obtain ⟨index, _, rfl⟩ := List.mem_map.mp member
  exact Nat.mod_lt _ (by decide)

theorem lastDigits_succ (width number : Nat) :
    lastDigits (width + 1) number = lastDigits width (number / 16) ++ [number % 16] := by
  rw [lastDigits, List.range_succ, List.map_append, lastDigits]
  congr 1
  · apply List.map_congr_left
    intro index member
    have below := List.mem_range.mp member
    rw [Nat.div_div_eq_div_mul, ← Nat.pow_succ', show (width - 1 - index).succ = width + 1 - 1 - index by omega]
  · simp

theorem ofDigits_lastDigits (width number : Nat) : ofDigits 0 (lastDigits width number) = number % 16 ^ width := by
  induction width generalizing number with
  | zero => simp [ofDigits, lastDigits, Nat.mod_one]
  | succ width ih =>
      have fold := ih (number / 16)
      rw [ofDigits] at fold
      rw [lastDigits_succ, ofDigits, List.foldl_append, fold, Nat.pow_succ', Nat.mod_mul]
      simp only [List.foldl_cons, List.foldl_nil]
      omega

theorem plain_of_no_space {text : List UInt8} (none : ∀ byte ∈ text, isSpace byte = false) : Plain text := by
  refine ⟨?_, ?_, ?_⟩ <;> exact fun member => absurd (none _ member) (by decide)

theorem dropWhile_none {text : List UInt8} (none : ∀ byte ∈ text, isSpace byte = false) :
    text.dropWhile isSpace = text := by
  cases text with
  | nil => rfl
  | cons byte rest => rw [List.dropWhile_cons_of_neg (by simp [none byte List.mem_cons_self])]

theorem strip_none {text : List UInt8} (none : ∀ byte ∈ text, isSpace byte = false) : strip text = text := by
  rw [strip, dropWhile_none none, dropWhile_none (fun byte member => none byte (List.mem_reverse.mp member)),
    List.reverse_reverse]

theorem mem_hexDigits {width number : Nat} {byte : UInt8} (member : byte ∈ (lastDigits width number).map hexDigit) :
    isSpace byte = false ∧ byte ≠ 95 := by
  obtain ⟨digit, inDigits, rfl⟩ := List.mem_map.mp member
  exact hexDigit_bytes digit (lastDigits_small inDigits)

theorem numeral_no_space {width number : Nat} :
    ∀ byte ∈ 48 :: 120 :: (lastDigits width number).map hexDigit, isSpace byte = false := by
  intro byte member
  rw [List.mem_cons, List.mem_cons] at member
  rcases member with rfl | rfl | digit
  · decide
  · decide
  · exact (mem_hexDigits digit).1

/-- A number written with all its digits after `0x` is read back. -/
theorem int_lastDigits {width number : Nat} (fits : number < 16 ^ (width + 1)) :
    int (48 :: 120 :: (lastDigits (width + 1) number).map hexDigit) = some (number : Int) := by
  have read : readDigits true 0 ((lastDigits (width + 1) number).map hexDigit) = some number := by
    cases digits : lastDigits (width + 1) number with
    | nil => simp [lastDigits_succ] at digits
    | cons digit rest =>
        have small : ∀ other ∈ digit :: rest, other < 16 := fun other member => lastDigits_small (digits ▸ member)
        have value := ofDigits_lastDigits (width + 1) number
        rw [digits, Nat.mod_eq_of_lt fits] at value
        simp only [List.map_cons, readDigits, hexValue_hexDigit digit (small digit List.mem_cons_self)]
        rw [readDigits_map (fun other member => small other (List.mem_cons_of_mem digit member))]
        exact congrArg some value
  have noUnderscore : ((lastDigits (width + 1) number).map hexDigit).head? ≠ some 95 := by
    intro first
    exact (mem_hexDigits (List.mem_of_mem_head? first)).2 rfl
  have numeral : readNumeral (48 :: 120 :: (lastDigits (width + 1) number).map hexDigit) = some number := by
    simp only [readNumeral, List.take_succ_cons, List.take_zero, true_or, if_true, List.drop_succ_cons, List.drop_zero,
      if_neg noUnderscore, read]
  simp [int, strip_none numeral_no_space, numeral]

end Sloader.Data.Text
