import Mathlib.Tactic

/-!
# Replacing words in a text

Rules `(word, value)` over an arbitrary alphabet: from left to right, a word is replaced by the
value of its first rule, and the text goes on behind the word.

* `replaceAll`, `replaceAll_copy`, `replaceAll_word`.
* `PrefixFree`: at most one of the words starts a text; `PrefixFree.eq`. Words that end with a mark
  which does not occur inside them are such: `prefixFree_delimited`.
-/

namespace Replacement

variable {α : Type*} [DecidableEq α] {rules : List (List α × List α)}

/-- The first rule whose word starts the text. -/
def ruleAt (rules : List (List α × List α)) (text : List α) : Option (List α × List α) :=
  rules.find? fun rule => rule.1.isPrefixOf text

/-- Every word of the text replaced, from left to right. -/
def replaceAll (rules : List (List α × List α)) : List α → List α
  | [] => []
  | a :: text =>
    match ruleAt rules (a :: text) with
    | some rule => rule.2 ++ replaceAll rules (text.drop (rule.1.length - 1))
    | none => a :: replaceAll rules text
termination_by text => text.length
decreasing_by
  all_goals simp only [List.length_drop, List.length_cons]
  all_goals omega

theorem replaceAll_copy {a : α} {text : List α} (h : ∀ rule ∈ rules, ¬ rule.1 <+: a :: text) :
    replaceAll rules (a :: text) = a :: replaceAll rules text := by
  have hnone : ruleAt rules (a :: text) = none :=
    List.find?_eq_none.mpr fun rule hrule => by
      rw [List.isPrefixOf_iff_prefix]
      exact h rule hrule
  rw [replaceAll, hnone]

theorem replaceAll_word {word value text : List α}
    (hrule : ruleAt rules (word ++ text) = some (word, value)) (hne : word ≠ []) :
    replaceAll rules (word ++ text) = value ++ replaceAll rules text := by
  obtain ⟨a, word, rfl⟩ := List.exists_cons_of_ne_nil hne
  rw [List.cons_append] at hrule ⊢
  rw [replaceAll, hrule]
  simp only [List.length_cons, Nat.add_sub_cancel, List.drop_left]

/-! ## Prefix-free words -/

/-- No word is a proper prefix of another one. -/
def PrefixFree (words : List (List α)) : Prop :=
  ∀ word ∈ words, ∀ word' ∈ words, word <+: word' → word = word'

omit [DecidableEq α] in
/-- At most one word starts a text. -/
theorem PrefixFree.eq {words : List (List α)} (h : PrefixFree words) {word word' text : List α}
    (hword : word ∈ words) (hword' : word' ∈ words) (hp : word <+: text) (hp' : word' <+: text) :
    word = word' := by
  rcases List.prefix_or_prefix_of_prefix hp hp' with hle | hle
  · exact h word hword word' hword' hle
  · exact (h word' hword' word hword hle).symm

omit [DecidableEq α] in
theorem prefixFree_delimited {words : List (List α)} {mark : α}
    (h : ∀ word ∈ words, ∃ body, mark ∉ body ∧ word = mark :: body ++ [mark]) : PrefixFree words := by
  intro word hword word' hword' hle
  obtain ⟨body, -, rfl⟩ := h word hword
  obtain ⟨body', hmark, rfl⟩ := h word' hword'
  rcases List.prefix_concat_iff.mp hle with heq | hle
  · exact heq
  · -- the mark that closes the shorter word would stand inside the longer one
    have hle : body ++ [mark] <+: body' := (List.cons_prefix_cons.mp hle).2
    exact absurd (hle.subset (List.mem_append_right _ List.mem_cons_self)) hmark

end Replacement
