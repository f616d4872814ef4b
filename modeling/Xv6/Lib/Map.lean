import Mathlib.Tactic.Common

/-! # Total maps

The one-point change of a function between plain types, with its value at the
point and its frame elsewhere. Unlike `Function.update` it needs no cast, so a
chain of changes evaluates by comparing keys only.
-/

namespace Lib

variable {α β : Type*} [DecidableEq α]

def upd (f : α → β) (a : α) (v : β) : α → β := fun x => if x = a then v else f x

@[simp] theorem upd_same (f : α → β) (a : α) (v : β) : upd f a v a = v := if_pos rfl

@[simp] theorem upd_other {f : α → β} {a x : α} {v : β} (h : x ≠ a) : upd f a v x = f x :=
  if_neg h

@[simp] theorem upd_upd (f : α → β) (a : α) (v w : β) : upd (upd f a v) a w = upd f a w := by
  funext x
  unfold upd
  split <;> rfl

@[simp] theorem upd_self (f : α → β) (a : α) : upd f a (f a) = f := by
  funext x
  unfold upd
  split
  · rw [‹x = a›]
  · rfl

end Lib
