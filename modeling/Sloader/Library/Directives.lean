import Sloader.Data.Tokens
import Sloader.Host

namespace Sloader

open Data

/-! What a configuration file says: the grammar of its text, against the loop of
`read_ldsoconf_dfs` that reads it. -/

/-- The file with this text lists the directives.  A comment starts where a word
could and goes on to the end of its line, the word after `include` is a pattern
whatever it is, and an `include` with nothing behind it has the empty pattern. -/
inductive Listing : CString → List Directive → Prop where
  | nothing {gap : CString} (isGap : IsGap isSpace gap) : Listing gap []
  | comment {gap body rest : CString} {listed : List Directive} (isGap : IsGap isSpace gap) (line : 10 ∉ body)
      (after : Listing rest listed) : Listing (gap ++ (35 :: body ++ 10 :: rest)) listed
  | lastComment {gap body : CString} (isGap : IsGap isSpace gap) (line : 10 ∉ body) :
      Listing (gap ++ 35 :: body) []
  | directory {gap word rest : CString} {listed : List Directive} (isGap : IsGap isSpace gap)
      (isWord : IsWord isSpace word) (starts : word.take 1 ≠ ascii "#") (name : word ≠ ascii "include")
      (bounds : Bounds isSpace rest) (after : Listing rest listed) :
      Listing (gap ++ (word ++ rest)) (.directory word :: listed)
  | include {gap between pattern rest : CString} {listed : List Directive} (isGap : IsGap isSpace gap)
      (isBetween : IsGap isSpace between) (separated : between ≠ []) (isWord : IsWord isSpace pattern)
      (bounds : Bounds isSpace rest) (after : Listing rest listed) :
      Listing (gap ++ (ascii "include" ++ (between ++ (pattern ++ rest)))) (.include pattern :: listed)
  | lastInclude {gap between : CString} (isGap : IsGap isSpace gap) (isBetween : IsGap isSpace between) :
      Listing (gap ++ (ascii "include" ++ between)) [.include []]

variable {text gap word rest : CString} {listed : List Directive}

theorem nextWord_append (isGap : IsGap isSpace gap) (isWord : IsWord isSpace word) (bounds : Bounds isSpace rest) :
    nextWord (gap ++ (word ++ rest)) = some (word, rest) := by
  have nonempty : word ++ rest ≠ [] := fun empty => isWord.1 (List.append_eq_nil_iff.mp empty).1
  simp only [nextWord, dropWhile_gap isGap, isWord.dropWhile, nonempty, if_false, isWord.takeWhile_append bounds,
    isWord.dropWhile_append bounds]

theorem nextWord_none : nextWord text = none ↔ IsGap isSpace text := by
  unfold nextWord
  dsimp only
  split
  · rename_i empty
    exact iff_of_true rfl (dropWhile_eq_nil.mp empty)
  · rename_i more
    exact iff_of_false (by simp) fun isGap => more (dropWhile_eq_nil.mpr isGap)

theorem nextWord_some (read : nextWord text = some (word, rest)) :
    ∃ gap, text = gap ++ (word ++ rest) ∧ IsGap isSpace gap ∧ IsWord isSpace word ∧ Bounds isSpace rest := by
  unfold nextWord at read
  dsimp only at read
  split at read
  · contradiction
  · rename_i more
    cases read
    obtain ⟨gap, isGap, isWord, bounds, whole⟩ := exists_word text more
    exact ⟨gap, whole, isGap, isWord, bounds⟩

theorem nextWord_shorter (read : nextWord text = some (word, rest)) : rest.length < text.length := by
  obtain ⟨gap, rfl, _, isWord, _⟩ := nextWord_some read
  have nonempty := List.length_pos_of_ne_nil isWord.1
  simp only [List.length_append]
  omega

/-- What is left of a text behind the end of its first line. -/
def afterLine (text : CString) : CString :=
  (text.dropWhile (· ≠ 10)).drop 1

theorem afterLine_length (text : CString) : (afterLine text).length ≤ text.length := by
  have dropped := (List.dropWhile_suffix (l := text) (· ≠ 10)).length_le
  rw [afterLine, List.length_drop]
  omega

theorem directivesFrom_succ {fuel : Nat} (enough : text.length ≤ fuel) :
    directivesFrom (fuel + 1) text = directivesFrom fuel text := by
  induction fuel generalizing text with
  | zero =>
      rw [List.eq_nil_of_length_eq_zero (Nat.le_zero.mp enough)]
      rfl
  | succ fuel ih =>
      rw [directivesFrom, directivesFrom]
      cases read : nextWord text with
      | none => rfl
      | some first =>
          obtain ⟨head, rest⟩ := first
          have shorter := nextWord_shorter read
          have line : (afterLine rest).length ≤ fuel := by
            have shortened := afterLine_length rest
            omega
          dsimp only
          split
          · exact ih line
          · split
            · cases second : nextWord rest with
              | none => rfl
              | some pattern =>
                  have shorterStill := nextWord_shorter second
                  exact congrArg _ (ih (by omega))
            · exact congrArg _ (ih (by omega))

theorem directivesFrom_eq {fuel : Nat} (enough : text.length ≤ fuel) : directivesFrom fuel text = directives text := by
  induction fuel, enough using Nat.le_induction with
  | base => rfl
  | succ fuel enough ih => rw [directivesFrom_succ enough, ih]

theorem directives_gap (isGap : IsGap isSpace text) : directives text = [] := by
  unfold directives
  cases text.length with
  | zero => rfl
  | succ fuel => simp only [directivesFrom, nextWord_none.mpr isGap]

/-- One turn of the loop. -/
theorem directives_word {head : CString} (read : nextWord text = some (head, rest)) :
    directives text =
      if head.take 1 = ascii "#" then directives (afterLine rest)
      else if head = ascii "include" then
        match nextWord rest with
        | none => [.include []]
        | some (descendants, rest) => .include descendants :: directives rest
      else .directory head :: directives rest := by
  have shorter := nextWord_shorter read
  obtain ⟨fuel, length⟩ := Nat.exists_eq_add_one.mpr (Nat.zero_lt_of_lt shorter)
  have enough : rest.length ≤ fuel := by omega
  rw [directives, length, directivesFrom, read]
  dsimp only
  rw [directivesFrom_eq enough]
  congr 1
  · exact directivesFrom_eq (Nat.le_trans (afterLine_length rest) enough)
  · cases second : nextWord rest with
    | none => rfl
    | some pattern =>
        have shorterStill : pattern.2.length < rest.length := nextWord_shorter second
        have enoughStill : pattern.2.length ≤ fuel := by omega
        simp only [directivesFrom_eq enoughStill]

theorem afterLine_append {body : CString} (line : 10 ∉ body) : afterLine (body ++ 10 :: rest) = rest := by
  rw [afterLine, List.dropWhile_append_of_pos]
  · simp
  · intro byte member
    simpa using fun newline : byte = 10 => line (newline ▸ member)

theorem afterLine_none (line : 10 ∉ text) : afterLine text = [] := by
  have none : text.dropWhile (· ≠ 10) = [] := by
    rw [List.dropWhile_eq_nil_iff]
    intro byte member
    simpa using fun newline : byte = 10 => line (newline ▸ member)
  rw [afterLine, none]
  rfl

/-- The word that starts a comment ends within its line. -/
theorem nextWord_comment {body : CString} (isGap : IsGap isSpace gap) (bounds : Bounds isSpace rest) :
    nextWord (gap ++ (35 :: body ++ rest)) =
      some (35 :: body.takeWhile (! isSpace ·), body.dropWhile (! isSpace ·) ++ rest) := by
  have split : 35 :: body ++ rest =
      35 :: body.takeWhile (! isSpace ·) ++ (body.dropWhile (! isSpace ·) ++ rest) := by
    rw [← List.append_assoc, List.cons_append, List.cons_append, List.cons_append, List.takeWhile_append_dropWhile]
  rw [split]
  apply nextWord_append isGap
  · refine ⟨List.cons_ne_nil _ _, ?_⟩
    intro byte member
    rcases List.mem_cons.mp member with rfl | inBody
    · decide
    · simpa using List.mem_takeWhile_imp inBody
  · intro byte first
    cases tail : body.dropWhile (! isSpace ·) with
    | nil =>
        rw [tail, List.nil_append] at first
        exact bounds byte first
    | cons letter others =>
        have stopped := List.head?_dropWhile_not (! isSpace ·) body
        rw [tail] at stopped first
        cases first
        simpa using stopped

theorem directives_comment {body : CString} (isGap : IsGap isSpace gap) (bounds : Bounds isSpace rest) :
    directives (gap ++ (35 :: body ++ rest)) = directives (afterLine (body.dropWhile (! isSpace ·) ++ rest)) := by
  have comment : (35 :: body.takeWhile (! isSpace ·)).take 1 = ascii "#" := rfl
  rw [directives_word (nextWord_comment isGap bounds), if_pos comment]

theorem Listing.read (listing : Listing text listed) : directives text = listed := by
  have notComment : (ascii "include").take 1 ≠ ascii "#" := by decide
  have isWordInclude : IsWord isSpace (ascii "include") := ⟨by decide, by decide +kernel⟩
  induction listing with
  | nothing isGap => exact directives_gap isGap
  | comment isGap line _ ih =>
      rw [directives_comment isGap (by simp [Bounds, isSpace]), afterLine_append, ih]
      exact fun member => line ((List.dropWhile_suffix _).subset member)
  | @lastComment gap body isGap line =>
      have whole := @directives_comment gap [] body isGap (by simp [Bounds])
      rw [List.append_nil, List.append_nil, afterLine_none] at whole
      · rw [whole]
        exact directives_gap fun _ member => absurd member List.not_mem_nil
      · exact fun member => line ((List.dropWhile_suffix _).subset member)
  | directory isGap isWord starts name bounds _ ih =>
      rw [directives_word (nextWord_append isGap isWord bounds), if_neg starts, if_neg name, ih]
  | «include» isGap isBetween separated isWord bounds _ ih =>
      rw [directives_word (nextWord_append isGap isWordInclude (isBetween.bounds_append separated)), if_neg notComment,
        if_pos rfl, nextWord_append isBetween isWord bounds]
      exact congrArg _ ih
  | lastInclude isGap isBetween =>
      rw [directives_word (nextWord_append isGap isWordInclude isBetween.bounds), if_neg notComment, if_pos rfl,
        nextWord_none.mpr isBetween]

theorem Listing.of_comment {body : CString} (isGap : IsGap isSpace gap) (inLine : 10 ∉ body)
    (following : Listing (afterLine rest) listed) (ended : afterLine rest = [] → listed = []) :
    Listing (gap ++ (35 :: body ++ rest)) listed := by
  by_cases lineEnds : (10 : UInt8) ∈ rest
  · obtain ⟨line, more, rfl, inside⟩ := List.eq_append_cons_of_mem lineEnds
    rw [afterLine_append inside] at following
    have oneLine : 10 ∉ body ++ line := by simp [inLine, inside]
    have comment := Listing.comment isGap oneLine following
    simpa using comment
  · rw [ended (afterLine_none lineEnds)]
    exact .lastComment isGap (by simp [inLine, lineEnds])

theorem Listing.of_include {pattern more : CString} (isGap : IsGap isSpace gap) (bounds : Bounds isSpace rest)
    (second : nextWord rest = some (pattern, more)) (following : Listing more listed) :
    Listing (gap ++ (ascii "include" ++ rest)) (.include pattern :: listed) := by
  obtain ⟨between, rfl, isBetween, isPattern, boundsMore⟩ := nextWord_some second
  have separated : between ≠ [] := by
    rintro rfl
    obtain ⟨nonempty, letters⟩ := isPattern
    cases pattern with
    | nil => contradiction
    | cons letter others =>
        have spaced := bounds letter rfl
        rw [letters letter List.mem_cons_self] at spaced
        contradiction
  exact .include isGap isBetween separated isPattern boundsMore following

theorem listing_directives (text : CString) : Listing text (directives text) := by
  induction length : text.length using Nat.strong_induction_on generalizing text with
  | _ count ih =>
      cases read : nextWord text with
      | none =>
          have isGap := nextWord_none.mp read
          rw [directives_gap isGap]
          exact .nothing isGap
      | some first =>
          obtain ⟨head, rest⟩ := first
          have shorter := nextWord_shorter read
          obtain ⟨gap, whole, isGap, isWord, bounds⟩ := nextWord_some read
          rw [directives_word read, whole]
          split
          · rename_i starts
            obtain ⟨body, rfl⟩ : ∃ body, head = 35 :: body := by
              cases head with
              | nil => exact absurd starts (by decide)
              | cons byte body => exact ⟨body, by rw [(List.cons.inj starts).1]; rfl⟩
            have inLine : 10 ∉ body := fun member =>
              absurd (isWord.2 10 (List.mem_cons_of_mem 35 member)) (by decide)
            have line := afterLine_length rest
            have following := ih (afterLine rest).length (by omega) (afterLine rest) rfl
            refine .of_comment isGap inLine following fun ended => ?_
            rw [ended]
            rfl
          · rename_i starts
            split
            · rename_i name
              subst name
              cases second : nextWord rest with
              | none => exact .lastInclude isGap (nextWord_none.mp second)
              | some pattern =>
                  have shorterStill := nextWord_shorter second
                  exact .of_include isGap bounds second (ih pattern.2.length (by omega) pattern.2 rfl)
            · rename_i name
              exact .directory isGap isWord starts name bounds (ih rest.length (by omega) rest rfl)

/-- The loop reads every text, and reads it as the grammar has it. -/
theorem directives_iff : directives text = listed ↔ Listing text listed := by
  constructor
  · rintro rfl
    exact listing_directives text
  · exact Listing.read

/-- A `#` in the middle of a word starts no comment, and an `include` at the end includes nothing. -/
example : directives (ascii "/lib#a # b /c\n/d include") =
    [.directory (ascii "/lib#a"), .directory (ascii "/d"), .include []] := by decide

end Sloader
