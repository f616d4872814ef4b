import Xv6.Lib.Map
import Mathlib.Algebra.BigOperators.Group.Finset.Basic
import Mathlib.Algebra.Order.BigOperators.Group.Finset
import Mathlib.Algebra.Order.Group.Multiset
import Mathlib.Data.Nat.Digits.Lemmas

/-! # Radix trees

A tree of depth `l + 1` and fanout `b` holds a value for every number, which is found along
its digits. The nodes have names; a branch that is missing stands for default values.
-/

namespace Lib

variable {α β : Type}

/-- A tree whose leaves are at depth `l` below its root. -/
@[reducible] def Radix (α β : Type) : Nat → Type
  | 0 => Nat → α
  | l + 1 => Nat → Option (β × Radix α β l)

namespace Radix

/-- Digit `l` of `v`. -/
def digit (b l v : Nat) : Nat := v / b ^ l % b

variable (b : Nat) (d : α)

def get : (l : Nat) → Radix α β l → Nat → α
  | 0, T, v => T (digit b 0 v)
  | l + 1, T, v =>
    match T (digit b (l + 1) v) with
    | none => d
    | some (_, T') => get l T' v

def node : (l : Nat) → β → Radix α β l → Nat → Option β
  | 0, q, _, _ => some q
  | l + 1, _, T, v =>
    match T (digit b (l + 1) v) with
    | none => none
    | some (c, T') => node l c T' v

def set : (l : Nat) → Radix α β l → Nat → α → Radix α β l
  | 0, T, v, w => upd T (digit b 0 v) w
  | l + 1, T, v, w =>
    match T (digit b (l + 1) v) with
    | none => T
    | some (c, T') => upd T (digit b (l + 1) v) (some (c, set l T' v w))

def nodes : (l : Nat) → β → Radix α β l → Multiset β
  | 0, q, _ => {q}
  | l + 1, q, T => {q} + ∑ i ∈ Finset.range b,
      match T i with
      | none => 0
      | some (c, T') => nodes l c T'

def empty : (l : Nat) → Radix α β l
  | 0 => fun _ => d
  | _ + 1 => fun _ => none

variable {b d} {l : Nat}

def below (b : Nat) (T : Radix α β (l + 1)) (i : Nat) : Multiset β :=
  match T i with
  | none => 0
  | some (c, T') => nodes b l c T'

theorem nodes_zero (q : β) (T : Radix α β 0) : nodes b 0 q T = {q} := rfl

theorem nodes_succ (q : β) (T : Radix α β (l + 1)) :
    nodes b (l + 1) q T = {q} + ∑ i ∈ Finset.range b, below b T i := rfl

-- a sum over a large fanout must not be unfolded by unification
attribute [irreducible] nodes

theorem root_mem_nodes (q : β) (T : Radix α β l) : q ∈ nodes b l q T := by
  cases l <;> simp [nodes_zero, nodes_succ]

@[simp] theorem get_empty (v : Nat) : get b d l (empty d l : Radix α β l) v = d := by
  cases l <;> rfl

@[simp] theorem nodes_empty (q : β) : nodes b l q (empty d l : Radix α β l) = {q} := by
  cases l <;> simp [nodes_zero, nodes_succ, below, empty]

theorem get_of_node {q : β} {T : Radix α β l} {v : Nat} (h : node b l q T v = none) :
    get b d l T v = d := by
  induction l generalizing q with
  | zero => cases h
  | succ l ih =>
    simp only [node] at h
    simp only [get]
    cases hT : T (digit b (l + 1) v) with
    | none => rfl
    | some c =>
      rw [hT] at h
      exact ih h

theorem node_mem {q p : β} {T : Radix α β l} {v : Nat} (hb : 0 < b)
    (h : node b l q T v = some p) : p ∈ nodes b l q T := by
  induction l generalizing q with
  | zero =>
    cases h
    exact root_mem_nodes _ _
  | succ l ih =>
    simp only [node] at h
    split at h
    · cases h
    · rename_i c T' hT
      have hi : digit b (l + 1) v ∈ Finset.range b := Finset.mem_range.mpr (Nat.mod_lt _ hb)
      rw [nodes_succ, Multiset.mem_add]
      right
      rw [Multiset.mem_sum]
      refine ⟨_, hi, ?_⟩
      simpa [below, hT] using ih h

/-! ## Changing a branch -/

/-- The nodes under the entries other than `i`. -/
def others (b : Nat) (T : Radix α β (l + 1)) (i : Nat) : Multiset β :=
  ∑ j ∈ (Finset.range b).erase i, below b T j

theorem nodes_eq (q : β) (T : Radix α β (l + 1)) {i : Nat} (hi : i < b) :
    nodes b (l + 1) q T = {q} + (below b T i + others b T i) := by
  rw [nodes_succ, ← Finset.add_sum_erase _ _ (Finset.mem_range.mpr hi)]
  rfl

attribute [irreducible] others

theorem below_some {T : Radix α β (l + 1)} {i : Nat} {c : β} {T' : Radix α β l}
    (h : T i = some (c, T')) : below b T i = nodes b l c T' := by
  simp [below, h]

theorem below_none {T : Radix α β (l + 1)} {i : Nat} (h : T i = none) : below b T i = 0 := by
  simp [below, h]

theorem nodes_le_others {T : Radix α β (l + 1)} {i j : Nat} {c : β} {T' : Radix α β l}
    (hj : j < b) (hji : j ≠ i) (h : T j = some (c, T')) : nodes b l c T' ≤ others b T i := by
  rw [← below_some (b := b) h, others]
  exact Finset.single_le_sum (f := below b T) (fun _ _ => Multiset.zero_le _)
    (Finset.mem_erase.mpr ⟨hji, Finset.mem_range.mpr hj⟩)

def firsts (b : Nat) (T : Radix α β (l + 1)) (i : Nat) : Multiset β :=
  ∑ j ∈ Finset.range i, below b T j

theorem firsts_zero (T : Radix α β (l + 1)) : firsts b T 0 = 0 := rfl

theorem firsts_succ (T : Radix α β (l + 1)) (i : Nat) :
    firsts b T (i + 1) = firsts b T i + below b T i := Finset.sum_range_succ ..

theorem firsts_le (T : Radix α β (l + 1)) {i j : Nat} (h : i ≤ j) :
    firsts b T i ≤ firsts b T j :=
  Finset.sum_le_sum_of_subset (Finset.range_subset_range.mpr h)

theorem nodes_firsts (q : β) (T : Radix α β (l + 1)) :
    nodes b (l + 1) q T = {q} + firsts b T b := nodes_succ q T

attribute [irreducible] firsts

def put (T : Radix α β (l + 1)) (i : Nat) (c : β) (T' : Radix α β l) : Radix α β (l + 1) :=
  upd T i (some (c, T'))

theorem nodes_put (q c : β) (T : Radix α β (l + 1)) {i : Nat} (T' : Radix α β l) (hi : i < b) :
    nodes b (l + 1) q (put T i c T') = {q} + (nodes b l c T' + others b T i) := by
  rw [nodes_eq q _ hi, below_some (show put T i c T' i = some (c, T') from upd_same ..)]
  congr 2
  rw [others, others]
  apply Finset.sum_congr rfl
  intro j hj
  simp [below, put, upd_other (Finset.ne_of_mem_erase hj)]

/-- The tree `T'` has the values of the branch whose place it takes. -/
theorem get_put {c : β} {T : Radix α β (l + 1)} {i : Nat} {T' : Radix α β l}
    (h : ∀ v, digit b (l + 1) v = i → get b d l T' v = get b d (l + 1) T v) (v : Nat) :
    get b d (l + 1) (put T i c T') v = get b d (l + 1) T v := by
  by_cases hv : digit b (l + 1) v = i
  · rw [← h v hv]
    simp [get, put, hv]
  · simp [get, put, upd_other hv]

/-! ## Changing a value -/

theorem set_some {T : Radix α β (l + 1)} {v : Nat} {c : β} {T' : Radix α β l}
    (h : T (digit b (l + 1) v) = some (c, T')) (w : α) :
    set b (l + 1) T v w = put T (digit b (l + 1) v) c (set b l T' v w) := by
  simp [set, h, put]

theorem nodes_set (hb : 0 < b) (q : β) (T : Radix α β l) (v : Nat) (w : α) :
    nodes b l q (set b l T v w) = nodes b l q T := by
  induction l generalizing q with
  | zero => rw [nodes_zero, nodes_zero]
  | succ l ih =>
    have hi : digit b (l + 1) v < b := Nat.mod_lt _ hb
    cases hT : T (digit b (l + 1) v) with
    | none => simp [set, hT]
    | some c => rw [set_some hT, nodes_put q _ T _ hi, ih, nodes_eq q T hi, below_some hT]

theorem node_set (q : β) (T : Radix α β l) (v v' : Nat) (w : α) :
    node b l q (set b l T v w) v' = node b l q T v' := by
  induction l generalizing q with
  | zero => rfl
  | succ l ih =>
    simp only [set]
    split
    · rfl
    · rename_i c T' hT
      simp only [node]
      by_cases hj : digit b (l + 1) v' = digit b (l + 1) v
      · simp [hj, hT, ih]
      · simp [upd_other hj]

/-- Two numbers agree up to digit `l` if they agree below it and in it. -/
theorem mod_eq_iff (hb : 0 < b) (v v' : Nat) : v' % b ^ (l + 1) = v % b ^ (l + 1) ↔
    digit b l v' = digit b l v ∧ v' % b ^ l = v % b ^ l := by
  have hpos : 0 < b ^ l := Nat.pow_pos hb
  have hlt := Nat.mod_lt v hpos
  have hlt' := Nat.mod_lt v' hpos
  rw [Nat.mod_pow_succ, Nat.mod_pow_succ]
  constructor
  · intro h
    have hdiv := congrArg (· / b ^ l) h
    have hmod := congrArg (· % b ^ l) h
    simp only [Nat.add_mul_div_left _ _ hpos, Nat.div_eq_of_lt hlt, Nat.div_eq_of_lt hlt',
      Nat.zero_add] at hdiv
    simp only [Nat.add_mul_mod_self_left, Nat.mod_eq_of_lt hlt, Nat.mod_eq_of_lt hlt'] at hmod
    exact ⟨hdiv, hmod⟩
  · intro h
    rw [h.2, show v' / b ^ l % b = v / b ^ l % b from h.1]

theorem get_set (hb : 0 < b) {q p : β} {T : Radix α β l} {v : Nat}
    (h : node b l q T v = some p) (v' : Nat) (w : α) :
    get b d l (set b l T v w) v' =
      if v' % b ^ (l + 1) = v % b ^ (l + 1) then w else get b d l T v' := by
  simp only [mod_eq_iff hb]
  induction l generalizing q with
  | zero =>
    simp only [get, set, pow_zero, Nat.mod_one, and_true]
    rfl
  | succ l ih =>
    simp only [node] at h
    simp only [set, get]
    cases hT : T (digit b (l + 1) v) with
    | none => simp [hT] at h
    | some c =>
      rw [hT] at h
      by_cases hj : digit b (l + 1) v' = digit b (l + 1) v
      · simp only [hj, upd_same, true_and, hT, ih h, mod_eq_iff hb]
      · simp only [upd_other hj, hj, false_and, if_false]

/-! ## Properties of all values -/

def All (b : Nat) (P : α → Prop) : (l : Nat) → Radix α β l → Prop
  | 0, T => ∀ i < b, P (T i)
  | l + 1, T => ∀ i < b, ∀ c T', T i = some (c, T') → All b P l T'

theorem digit_congr {b k n v v' : Nat} (h : v' % b ^ n = v % b ^ n) (hk : k < n) :
    digit b k v' = digit b k v := by
  have hdvd : b ^ (k + 1) ∣ b ^ n := Nat.pow_dvd_pow b hk
  have hmod : v' % b ^ (k + 1) = v % b ^ (k + 1) := by
    rw [← Nat.mod_mod_of_dvd v' hdvd, h, Nat.mod_mod_of_dvd v hdvd]
  rw [pow_succ] at hmod
  unfold digit
  rw [← Nat.mod_mul_right_div_self, ← Nat.mod_mul_right_div_self, hmod]

theorem get_congr {T : Radix α β l} {v v' : Nat} (h : v' % b ^ (l + 1) = v % b ^ (l + 1)) :
    get b d l T v' = get b d l T v := by
  induction l with
  | zero =>
    simp only [get]
    rw [digit_congr h (by omega)]
  | succ l ih =>
    simp only [get]
    rw [digit_congr h (by omega)]
    cases T (digit b (l + 1) v) with
    | none => rfl
    | some c =>
      have hdvd : b ^ (l + 1) ∣ b ^ (l + 1 + 1) := Nat.pow_dvd_pow b (by omega)
      refine ih ?_
      rw [← Nat.mod_mod_of_dvd v' hdvd, h, Nat.mod_mod_of_dvd v hdvd]

theorem all_of_get {P : α → Prop} {T : Radix α β l}
    (h : ∀ v < b ^ (l + 1), P (get b d l T v)) : All b P l T := by
  induction l with
  | zero =>
    intro i hi
    have hP := h i (by simpa using hi)
    simpa [get, digit, Nat.mod_eq_of_lt hi] using hP
  | succ l ih =>
    intro i hi c T' hT
    apply ih
    intro v hv
    have hpos : 0 < b ^ (l + 1) := Nat.zero_lt_of_lt hv
    have hdigit : digit b (l + 1) (v + b ^ (l + 1) * i) = i := by
      rw [digit, Nat.add_mul_div_left _ _ hpos, Nat.div_eq_of_lt hv, Nat.zero_add,
        Nat.mod_eq_of_lt hi]
    have hlt : v + b ^ (l + 1) * i < b ^ (l + 1 + 1) := by
      calc v + b ^ (l + 1) * i < b ^ (l + 1) + b ^ (l + 1) * i := by omega
        _ = b ^ (l + 1) * (i + 1) := by rw [Nat.mul_succ, Nat.add_comm]
        _ ≤ b ^ (l + 1) * b := Nat.mul_le_mul_left _ hi
        _ = b ^ (l + 1 + 1) := (pow_succ ..).symm
    have hP := h _ hlt
    simp only [get, hdigit, hT] at hP
    rwa [get_congr (Nat.add_mul_mod_self_left ..)] at hP

end Radix

end Lib
