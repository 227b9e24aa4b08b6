import Mathlib.Data.List.DropRight
import MixUpOS.AK.Builtins
import MixUpOS.AK.StringView

/-!
# Lexical paths
-/

namespace MixUpOS.Kernel.KLexicalPath

open AK StringView List

def isAbsolute (path : StringView) : Bool := path.head? == some slash

def isCanonical (path : StringView) : Bool :=
  if path.isEmpty then false
  else if path.getLast? == some slash && path.length != 1 then false
  else if startsWith path [dot, slash] || contains path [slash, dot, slash] ||
      endsWith path [slash, dot] then false
  else if startsWith path [dot, dot, slash] || contains path [slash, dot, dot, slash] ||
      endsWith path [slash, dot, dot] then false
  else if contains path [slash, slash] then false
  else true

def basename (path : StringView) : StringView :=
  if path = [slash] then path
  else if path.isEmpty then [dot]
  else
    let trimmed := trimRight path slash
    if trimmed.isEmpty then path.take 1
    else
      match findLast trimmed slash with
      | none => trimmed
      | some index => trimmed.drop (index + 1)

def parts (path : StringView) : Option (List StringView) := do
  verify (isCanonical path)
  return splitView path slash

/-- `try_join`, when it gets its memory. -/
def tryJoin (first second : StringView) : Option StringView := do
  verify (isCanonical first)
  verify (isCanonical second)
  verify (!isAbsolute second)
  if first = [slash] then return slash :: second
  else return first ++ slash :: second

theorem exists_append_of_components (split : components path = others ++ [name]) :
    ∃ front, path = front ++ name ∧ slash ∉ name ∧
      (front = [] ∨ ∃ start, front = start ++ [slash]) := by
  induction others generalizing path with
  | nil =>
    rcases afterFirstPart_cases path with nothing | ⟨rest, more⟩
    · have whole := firstPart_append path
      rw [components_of_nothing nothing] at split
      obtain rfl : firstPart path = name := by simpa using split
      rw [nothing, append_nil] at whole
      exact ⟨[], whole.symm, slash_notMem_firstPart path, .inl rfl⟩
    · rw [components_of_more more] at split
      exact absurd (cons.inj split).2 (components_ne_nil rest)
  | cons part others ih =>
    rcases afterFirstPart_cases path with nothing | ⟨rest, more⟩
    · rw [components_of_nothing nothing] at split
      simp at split
    have whole := firstPart_append path
    rw [components_of_more more] at split
    obtain ⟨front, isRest, noSlash, ends⟩ := ih (cons.inj split).2
    refine ⟨firstPart path ++ slash :: front, ?_, noSlash, .inr ?_⟩
    · calc path = firstPart path ++ afterFirstPart path := whole.symm
        _ = firstPart path ++ slash :: front ++ name := by
          rw [more, isRest]
          simp
    · rcases ends with rfl | ⟨start, rfl⟩
      · exact ⟨firstPart path, rfl⟩
      · exact ⟨firstPart path ++ slash :: start, by simp⟩

theorem trimRight_append (notEmpty : name ≠ []) (noSlash : slash ∉ name) :
    trimRight (front ++ name) slash = front ++ name := by
  refine rdropWhile_eq_self_iff.mpr fun _ isSlash => noSlash ?_
  rw [getLast_append_of_ne_nil _ notEmpty, beq_iff_eq] at isSlash
  exact isSlash ▸ getLast_mem notEmpty

theorem basename_eq (split : components path = others ++ [name]) (notEmpty : name ≠ []) :
    basename path = name := by
  obtain ⟨front, rfl, noSlash, ends⟩ := exists_append_of_components split
  have notAll : front ++ name ≠ [slash] := by
    intro isSlash
    apply noSlash
    have last : (front ++ name).getLast? = some slash := by rw [isSlash]; rfl
    rw [getLast?_append_of_ne_nil _ notEmpty] at last
    exact mem_of_getLast? last
  have isSome : (front ++ name).isEmpty = false := by simp [notEmpty]
  have notIn : name.reverse.findIdx? (· == slash) = none := by
    rw [findIdx?_eq_none_iff]
    intro character member
    rw [beq_eq_false_iff_ne]
    rintro rfl
    exact noSlash (mem_reverse.mp member)
  rw [basename, if_neg notAll]
  simp only [Bool.false_eq_true, if_false, trimRight_append notEmpty noSlash, isSome]
  rcases ends with rfl | ⟨start, rfl⟩
  · simp [findLast, notIn]
  · have found : findLast (start ++ [slash] ++ name) slash = some start.length := by
      simp [findLast, notIn, findIdx?_cons]
    rw [found]
    simp

theorem trimRight_replicate (path : StringView) :
    ∃ count, path = trimRight path slash ++ replicate count slash := by
  induction path using reverseRecOn with
  | nil => exact ⟨0, rfl⟩
  | append_singleton path last ih =>
    obtain ⟨count, same⟩ := ih
    change ∃ count, _ = rdropWhile (· == slash) (path ++ [last]) ++ _
    by_cases isSlash : last = slash
    · refine ⟨count + 1, ?_⟩
      rw [rdropWhile_concat_pos _ _ _ (by simp [isSlash]), replicate_succ', ← append_assoc, isSlash]
      exact congrArg (· ++ [slash]) same
    · exact ⟨0, by simp [isSlash]⟩

theorem components_append_replicate (path : StringView) (count : Nat) :
    components (path ++ replicate count slash) = components path ++ replicate count [] := by
  induction count with
  | zero => simp
  | succ count ih =>
    rw [replicate_succ', ← append_assoc, components, splitOn_append_cons_self]
    change components (path ++ replicate count slash) ++ _ = _
    rw [ih, replicate_succ', append_assoc]
    rfl

theorem trimRight_trimRight (path : StringView) :
    trimRight (trimRight path slash) slash = trimRight path slash := rdropWhile_idempotent _ _

theorem basename_trimRight (notEmpty : trimRight path slash ≠ []) :
    basename (trimRight path slash) = basename path := by
  have someTrimmed : (trimRight path slash).isEmpty = false := by simpa using notEmpty
  have notSlash : path ≠ [slash] := by
    rintro rfl
    exact notEmpty rfl
  have trimmedNotSlash : trimRight path slash ≠ [slash] := by
    intro isSlash
    have again := trimRight_trimRight path
    rw [isSlash] at again
    cases again
  have somePath : path.isEmpty = false := by
    cases path with
    | nil => exact absurd rfl notEmpty
    | cons first rest => rfl
  rw [basename, basename, if_neg trimmedNotSlash, if_neg notSlash, somePath, trimRight_trimRight]
  simp [someTrimmed]

theorem trimRight_components (notEmpty : trimRight path slash ≠ []) :
    ∃ others last, components (trimRight path slash) = others ++ [last] ∧ last ≠ [] := by
  have someParts := components_ne_nil (trimRight path slash)
  refine ⟨_, _, (dropLast_append_getLast someParts).symm, ?_⟩
  intro isEmpty
  obtain ⟨front, isFront, _, ends⟩ := exists_append_of_components
    (dropLast_append_getLast someParts).symm
  rw [isEmpty] at isFront
  rcases ends with rfl | ⟨start, rfl⟩
  · exact notEmpty isFront
  apply rdropWhile_last_not _ _ notEmpty
  change (getLast (trimRight path slash) notEmpty == slash) = true
  simp [isFront]

end MixUpOS.Kernel.KLexicalPath
