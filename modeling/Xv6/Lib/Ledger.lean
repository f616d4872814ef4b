import Mathlib.Data.Finset.Card
import Mathlib.Tactic.Common

/-! # Who holds what

A ledger relates the resources in use to the places that refer to them: every
resource in use is referred to from exactly one place, or is loose, which is how
it stands between being taken and being attached, or being detached and given
back. One lemma for each of these moves.
-/

namespace Lib

variable {ι ρ : Type*} {used used' loose loose' : ρ → Prop} {ref ref' : ι → Option ρ}

structure Ledger (used : ρ → Prop) (ref : ι → Option ρ) (loose : ρ → Prop) : Prop where
  inj : ∀ x y r, ref x = some r → ref y = some r → x = y
  used_of_ref : ∀ x r, ref x = some r → used r ∧ ¬ loose r
  used_of_loose : ∀ r, loose r → used r
  cover : ∀ r, used r → loose r ∨ ∃ x, ref x = some r

namespace Ledger

theorem congr (h : Ledger used ref loose) (hu : ∀ r, used' r ↔ used r)
    (hr : ∀ x, ref' x = ref x) (hl : ∀ r, loose' r ↔ loose r) : Ledger used' ref' loose' := by
  obtain rfl : used' = used := funext fun r => propext (hu r)
  obtain rfl : ref' = ref := funext hr
  obtain rfl : loose' = loose := funext fun r => propext (hl r)
  exact h

theorem take (h : Ledger used ref loose) {r : ρ} (hr : ¬ used r)
    (hu : ∀ q, used' q ↔ used q ∨ q = r) (hl : ∀ q, loose' q ↔ loose q ∨ q = r) :
    Ledger used' ref loose' := by
  refine ⟨h.inj, ?_, ?_, ?_⟩
  · intro x q hx
    have hq := h.used_of_ref x q hx
    have hne : q ≠ r := fun heq => hr (heq ▸ hq.1)
    exact ⟨(hu q).mpr (.inl hq.1), fun hlq => ((hl q).mp hlq).elim hq.2 hne⟩
  · intro q hq
    exact (hu q).mpr (((hl q).mp hq).imp (h.used_of_loose q) id)
  · intro q hq
    rcases (hu q).mp hq with hq | hq
    · exact (h.cover q hq).imp (fun hlq => (hl q).mpr (.inl hlq)) id
    · exact .inl ((hl q).mpr (.inr hq))

theorem attach [DecidableEq ι] (h : Ledger used ref loose) {x : ι} {r : ρ} (hx : ref x = none)
    (hr : loose r) (href : ∀ y, ref' y = if y = x then some r else ref y)
    (hl : ∀ q, loose' q ↔ loose q ∧ q ≠ r) : Ledger used ref' loose' := by
  have hfresh : ∀ y, ref y ≠ some r := fun y hy => (h.used_of_ref y r hy).2 hr
  refine ⟨?_, ?_, ?_, ?_⟩
  · intro y z q hy hz
    rw [href] at hy hz
    split at hy <;> split at hz
    · simp_all
    · exact absurd (Option.some.inj hy ▸ hz) (hfresh z)
    · exact absurd (Option.some.inj hz ▸ hy) (hfresh y)
    · exact h.inj y z q hy hz
  · intro y q hy
    rw [href] at hy
    split at hy
    · obtain rfl := Option.some.inj hy
      exact ⟨h.used_of_loose r hr, fun hlq => ((hl r).mp hlq).2 rfl⟩
    · have hq := h.used_of_ref y q hy
      exact ⟨hq.1, fun hlq => hq.2 ((hl q).mp hlq).1⟩
  · exact fun q hq => h.used_of_loose q ((hl q).mp hq).1
  · intro q hq
    rcases h.cover q hq with hlq | ⟨y, hy⟩
    · by_cases hqr : q = r
      · exact .inr ⟨x, by rw [href, if_pos rfl, hqr]⟩
      · exact .inl ((hl q).mpr ⟨hlq, hqr⟩)
    · refine .inr ⟨y, ?_⟩
      have hyx : y ≠ x := by
        rintro rfl
        rw [hx] at hy
        cases hy
      rw [href, if_neg hyx, hy]

theorem detach (h : Ledger used ref loose) (D : ι → Prop) [DecidablePred D]
    (href : ∀ y, ref' y = if D y then none else ref y)
    (hl : ∀ q, loose' q ↔ loose q ∨ ∃ y, D y ∧ ref y = some q) : Ledger used ref' loose' := by
  have hsub : ∀ y q, ref' y = some q → ¬ D y ∧ ref y = some q := by
    intro y q hy
    rw [href] at hy
    split at hy
    · cases hy
    · exact ⟨‹_›, hy⟩
  refine ⟨?_, ?_, ?_, ?_⟩
  · exact fun y z q hy hz => h.inj y z q (hsub y q hy).2 (hsub z q hz).2
  · intro y q hy
    obtain ⟨hD, hy⟩ := hsub y q hy
    have hq := h.used_of_ref y q hy
    refine ⟨hq.1, fun hlq => ?_⟩
    rcases (hl q).mp hlq with hlq | ⟨z, hz, hzq⟩
    · exact hq.2 hlq
    · exact hD (h.inj z y q hzq hy ▸ hz)
  · intro q hq
    rcases (hl q).mp hq with hq | ⟨z, _, hz⟩
    · exact h.used_of_loose q hq
    · exact (h.used_of_ref z q hz).1
  · intro q hq
    rcases h.cover q hq with hlq | ⟨y, hy⟩
    · exact .inl ((hl q).mpr (.inl hlq))
    · by_cases hD : D y
      · exact .inl ((hl q).mpr (.inr ⟨y, hD, hy⟩))
      · exact .inr ⟨y, by rw [href, if_neg hD, hy]⟩

theorem give (h : Ledger used ref loose) {r : ρ} (hr : loose r)
    (hu : ∀ q, used' q ↔ used q ∧ q ≠ r) (hl : ∀ q, loose' q ↔ loose q ∧ q ≠ r) :
    Ledger used' ref loose' := by
  refine ⟨h.inj, ?_, ?_, ?_⟩
  · intro x q hx
    have hq := h.used_of_ref x q hx
    have hne : q ≠ r := fun heq => hq.2 (heq ▸ hr)
    exact ⟨(hu q).mpr ⟨hq.1, hne⟩, fun hlq => hq.2 ((hl q).mp hlq).1⟩
  · intro q hq
    have hq := (hl q).mp hq
    exact (hu q).mpr ⟨h.used_of_loose q hq.1, hq.2⟩
  · intro q hq
    have hq := (hu q).mp hq
    exact (h.cover q hq.1).imp (fun hlq => (hl q).mpr ⟨hlq, hq.2⟩) id

/-- What is loose is determined by what is in use and what is referred to. -/
theorem loose_iff (h : Ledger used ref loose) (r : ρ) :
    loose r ↔ used r ∧ ∀ x, ref x ≠ some r := by
  constructor
  · intro hl
    exact ⟨h.used_of_loose r hl, fun x hx => (h.used_of_ref x r hx).2 hl⟩
  · rintro ⟨hu, hno⟩
    exact (h.cover r hu).resolve_right fun ⟨x, hx⟩ => hno x hx

/-- Where all of a finite stock is used, no place is empty that another ledger fills. -/
theorem filled_of_full {F : Finset ρ} (h : Ledger used ref loose) (h' : Ledger used' ref' loose)
    (hF : ∀ r, used r → r ∈ F) (hall : ∀ r ∈ F, used' r)
    (hsub : ∀ x r, ref' x = some r → ∃ r', ref x = some r') {x : ι} {r : ρ}
    (hx : ref x = some r) : ∃ r', ref' x = some r' := by
  classical
  -- what the owner of a block here has there; a loose block stands for itself
  have hown : ∀ b, ∃ b', b ∈ F → (loose b ∧ b' = b) ∨
      ∃ y, ref' y = some b ∧ ref y = some b' := by
    intro b
    by_cases hb : b ∈ F
    · rcases h'.cover b (hall b hb) with hl | ⟨y, hy⟩
      · exact ⟨b, fun _ => .inl ⟨hl, rfl⟩⟩
      · obtain ⟨b', hb'⟩ := hsub y b hy
        exact ⟨b', fun _ => .inr ⟨y, hy, hb'⟩⟩
    · exact ⟨b, fun hb' => absurd hb' hb⟩
  choose own hown using hown
  have hmaps : Set.MapsTo own F F := by
    intro b hb
    rcases hown b hb with ⟨-, heq⟩ | ⟨y, -, hy⟩
    · rw [heq]
      exact hb
    · exact hF _ (h.used_of_ref y _ hy).1
  have hinj : Set.InjOn own F := by
    intro b hb c hc heq
    rcases hown b hb with ⟨hlb, hob⟩ | ⟨y, hyb, hy⟩ <;>
      rcases hown c hc with ⟨hlc, hoc⟩ | ⟨z, hzc, hz⟩
    · rw [← hob, heq, hoc]
    · rw [← heq, hob] at hz
      exact absurd hlb (h.used_of_ref z b hz).2
    · rw [heq, hoc] at hy
      exact absurd hlc (h.used_of_ref y c hy).2
    · rw [h.inj y z (own b) hy (heq ▸ hz), hzc] at hyb
      exact (Option.some.inj hyb).symm
  obtain ⟨b, hb, heq⟩ := Finset.surjOn_of_injOn_of_card_le own hmaps hinj (Nat.le_refl _)
    (hF r (h.used_of_ref x r hx).1)
  rcases hown b hb with ⟨hl, hob⟩ | ⟨y, hyb, hy⟩
  · rw [← heq, hob] at hx
    exact absurd hl (h.used_of_ref x b hx).2
  · rw [heq] at hy
    rw [h.inj x y r hx hy]
    exact ⟨b, hyb⟩

end Ledger

end Lib
