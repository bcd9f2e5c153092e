import Mathlib.Data.List.Basic

/-! Actions on a state that is looked at index by index, where each action concerns some of the indices only. What
is seen at an index goes by the actions that concern it; actions on different indices may be taken in any order. -/

namespace LocalActions

variable {σ α ι β : Type*}

/-- An action leaves what is seen at an index alone when it does not concern it, and what it makes of it goes by
what was there. -/
structure Local (look : σ → ι → β) (act : σ → α → σ) (concerns : α → ι → Bool) : Prop where
  frame : ∀ a i, concerns a i = false → ∀ s, look (act s a) i = look s i
  congr : ∀ a i s s', look s i = look s' i → look (act s a) i = look (act s' a) i

namespace Local

variable {look : σ → ι → β} {act : σ → α → σ} {concerns : α → ι → Bool} (h : Local look act concerns)
include h

theorem foldl_congr {s s' : σ} {i : ι} (hs : look s i = look s' i) (as : List α) :
    look (as.foldl act s) i = look ((as.filter fun a => concerns a i).foldl act s') i := by
  induction as generalizing s s' with
  | nil => exact hs
  | cons a as ih =>
      cases ha : concerns a i with
      | false =>
          rw [List.filter_cons, if_neg (ne_true_of_eq_false ha)]
          exact ih ((h.frame a i ha s).trans hs)
      | true =>
          rw [List.filter_cons, if_pos ha]
          exact ih (h.congr a i s s' hs)

/-- An index sees only the actions that concern it. -/
theorem foldl_filter (s : σ) (i : ι) (as : List α) :
    look (as.foldl act s) i = look ((as.filter fun a => concerns a i).foldl act s) i := h.foldl_congr rfl as

/-- Actions in another order look the same everywhere, when each index has those that concern it in the same
order. -/
theorem foldl_reorder (s : σ) {as as' : List α}
    (hsame : ∀ i, (as.filter fun a => concerns a i) = as'.filter fun a => concerns a i) (i : ι) :
    look (as.foldl act s) i = look (as'.foldl act s) i := by
  rw [h.foldl_filter, h.foldl_filter s i as', hsame]

end Local

end LocalActions
