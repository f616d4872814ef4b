import Xv6.Kernel.Fs.Disk

/-! # The inodes in memory and on disk

The newest copy of an inode is the valid entry of the inode table that holds it,
or the one on disk. `bmap` is specified over these: the file reads the same
before and after, the block it returns is the one the file has at that place,
and nothing else in the file system moves.
-/

namespace Xv6.Fs

open Lib

/-! ## The table -/

/-- The valid entry of the table for inode `i`. -/
def FsMem.slotOf (m : FsMem) (i : Nat) : Option Nat :=
  (List.range nInode).find? fun ip =>
    0 < (m.itable ip).ref ∧ (m.itable ip).valid ∧ (m.itable ip).inum = i

/-- The newest copy of inode `i`; a free one past the last inode. -/
def Store.inodeOf (s : Store) (i : Nat) : Dinode :=
  if i < s.mem.sb.ninodes then
    match s.mem.slotOf i with
    | some ip => (s.mem.itable ip).din
    | none => diskInode s.mem.sb s.blocks i
  else Dinode.zero

def FsMem.Unique (m : FsMem) : Prop :=
  ∀ ip jp, ip < nInode → jp < nInode → 0 < (m.itable ip).ref → 0 < (m.itable jp).ref →
    (m.itable ip).inum = (m.itable jp).inum → ip = jp

structure FsMem.Holds (m : FsMem) (ip i : Nat) : Prop where
  lt : ip < nInode
  ref : 0 < (m.itable ip).ref
  valid : (m.itable ip).valid = true
  inum : (m.itable ip).inum = i

def FsMem.mapDin (m : FsMem) (ip : Nat) (g : Dinode → Dinode) : FsMem :=
  { m with itable := upd m.itable ip { m.itable ip with din := g (m.itable ip).din } }

section

variable {s t : Store} {m : FsMem} {ip i j : Nat} {g : Dinode → Dinode}

theorem slotOf_eq_some (hu : m.Unique) : m.slotOf i = some ip ↔ m.Holds ip i := by
  unfold FsMem.slotOf
  constructor
  · intro hf
    have hp := List.find?_some hf
    simp only [decide_eq_true_eq] at hp
    exact ⟨List.mem_range.mp (List.mem_of_find?_eq_some hf), hp.1, hp.2.1, hp.2.2⟩
  · intro h
    cases hf : m.slotOf i with
    | none =>
        have := List.find?_eq_none.mp hf ip (List.mem_range.mpr h.lt)
        simp [h.ref, h.valid, h.inum] at this
    | some jp =>
        have hp := List.find?_some hf
        have hlt := List.mem_range.mp (List.mem_of_find?_eq_some hf)
        simp only [decide_eq_true_eq] at hp
        have heq : jp = ip := hu jp ip hlt h.lt hp.1 h.ref (hp.2.2.trans h.inum.symm)
        rw [← heq]
        exact hf

theorem slotOf_eq_none : m.slotOf i = none ↔ ∀ ip, ¬ m.Holds ip i := by
  unfold FsMem.slotOf
  rw [List.find?_eq_none]
  simp only [List.mem_range, decide_eq_true_eq]
  constructor
  · exact fun hn ip h => hn ip h.lt ⟨h.ref, h.valid, h.inum⟩
  · exact fun hn ip hlt h => hn ip ⟨hlt, h.1, h.2.1, h.2.2⟩

theorem inodeOf_of_holds (hu : s.mem.Unique) (hi : i < s.mem.sb.ninodes)
    (h : s.mem.Holds ip i) : s.inodeOf i = (s.mem.itable ip).din := by
  rw [Store.inodeOf, if_pos hi, (slotOf_eq_some hu).mpr h]

theorem inodeOf_of_not_holds (hi : i < s.mem.sb.ninodes) (h : ∀ ip, ¬ s.mem.Holds ip i) :
    s.inodeOf i = diskInode s.mem.sb s.blocks i := by
  rw [Store.inodeOf, if_pos hi, slotOf_eq_none.mpr h]

theorem Store.inodeOf_cases (hu : s.mem.Unique) (hi : i < s.mem.sb.ninodes) :
    (∃ ip, s.mem.Holds ip i ∧ s.inodeOf i = (s.mem.itable ip).din) ∨
      (∀ ip, ¬ s.mem.Holds ip i) ∧ s.inodeOf i = diskInode s.mem.sb s.blocks i := by
  by_cases h : ∃ ip, s.mem.Holds ip i
  · obtain ⟨ip, hip⟩ := h
    exact .inl ⟨ip, hip, inodeOf_of_holds hu hi hip⟩
  · have hn : ∀ ip, ¬ s.mem.Holds ip i := fun ip hip => h ⟨ip, hip⟩
    exact .inr ⟨hn, inodeOf_of_not_holds hi hn⟩

theorem FsMem.Holds.inj (h : m.Holds ip i) (h' : m.Holds ip j) : i = j :=
  h.inum.symm.trans h'.inum

@[simp] theorem mapDin_sb : (m.mapDin ip g).sb = m.sb := rfl

@[simp] theorem mapDin_same : (m.mapDin ip g).itable ip =
    { m.itable ip with din := g (m.itable ip).din } := upd_same _ _ _

theorem mapDin_other {jp : Nat} (h : jp ≠ ip) : (m.mapDin ip g).itable jp = m.itable jp :=
  upd_other h

theorem mapDin_fields (m : FsMem) (ip : Nat) (g : Dinode → Dinode) (jp : Nat) :
    ((m.mapDin ip g).itable jp).ref = (m.itable jp).ref ∧
    ((m.mapDin ip g).itable jp).valid = (m.itable jp).valid ∧
    ((m.mapDin ip g).itable jp).inum = (m.itable jp).inum ∧
    ((m.mapDin ip g).itable jp).locked = (m.itable jp).locked := by
  by_cases h : jp = ip
  · subst h
    simp
  · simp [mapDin_other h]

@[simp] theorem mapDin_mapDin {g' : Dinode → Dinode} :
    (m.mapDin ip g).mapDin ip g' = m.mapDin ip fun x => g' (g x) := by
  simp [FsMem.mapDin]

theorem mapDin_id (h : g (m.itable ip).din = (m.itable ip).din) : m.mapDin ip g = m := by
  unfold FsMem.mapDin
  rw [h]
  simp

theorem mapDin_holds {jp : Nat} : (m.mapDin ip g).Holds jp j ↔ m.Holds jp j := by
  obtain ⟨h1, h2, h3, -⟩ := mapDin_fields m ip g jp
  constructor
  · rintro ⟨a, b, c, d⟩
    exact ⟨a, h1 ▸ b, h2 ▸ c, h3 ▸ d⟩
  · rintro ⟨a, b, c, d⟩
    exact ⟨a, by rw [h1]; exact b, by rw [h2]; exact c, by rw [h3]; exact d⟩

theorem FsMem.Unique.mapDin (hu : m.Unique) : (m.mapDin ip g).Unique := by
  intro jp kp hj hk
  obtain ⟨h1, -, h3, -⟩ := mapDin_fields m ip g jp
  obtain ⟨h1', -, h3', -⟩ := mapDin_fields m ip g kp
  rw [h1, h3, h1', h3']
  exact hu jp kp hj hk

/-- A change of the copy in entry `ip` is a change of the inode it holds. -/
theorem inodeOf_mapDin (hu : s.mem.Unique) (hi : i < s.mem.sb.ninodes) (h : s.mem.Holds ip i)
    (hm : t.mem = s.mem.mapDin ip g)
    (hd : ∀ j < s.mem.sb.ninodes, (∀ jp, ¬ s.mem.Holds jp j) →
      diskInode s.mem.sb t.blocks j = diskInode s.mem.sb s.blocks j) :
    t.inodeOf = upd s.inodeOf i (g (s.inodeOf i)) := by
  have hu' : t.mem.Unique := hm ▸ hu.mapDin
  have hsb : t.mem.sb = s.mem.sb := by rw [hm, mapDin_sb]
  funext j
  by_cases hji : j = i
  · subst hji
    rw [upd_same, inodeOf_of_holds hu' (hsb ▸ hi) (hm ▸ mapDin_holds.mpr h),
      inodeOf_of_holds hu hi h, hm, mapDin_same]
  · rw [upd_other hji]
    by_cases hj : j < s.mem.sb.ninodes
    · rcases s.inodeOf_cases hu hj with ⟨jp, hjp, heq⟩ | ⟨hn, heq⟩
      · have hne : jp ≠ ip := by
          rintro rfl
          exact hji (hjp.inj h)
        rw [inodeOf_of_holds hu' (hsb ▸ hj) (hm ▸ mapDin_holds.mpr hjp), heq, hm, mapDin_other hne]
      · rw [inodeOf_of_not_holds (hsb ▸ hj) fun jp hjp => hn jp (mapDin_holds.mp (hm ▸ hjp)),
          heq, hsb]
        exact hd j hj hn
    · rw [Store.inodeOf, Store.inodeOf, hsb, if_neg hj, if_neg hj]

theorem inodeOf_congr (hm : t.mem = s.mem) (hd : ∀ j < s.mem.sb.ninodes,
      diskInode s.mem.sb t.blocks j = diskInode s.mem.sb s.blocks j) :
    t.inodeOf = s.inodeOf := by
  funext j
  rw [Store.inodeOf, Store.inodeOf, hm]
  split
  · rw [hd j ‹_›]
  · rfl

@[simp] theorem wp_setDin {I : Store → Prop} {E : Stop → Store → Prop}
    {Q : Unit → Store → Prop} (ip : Nat) (g : Dinode → Dinode) :
    wp I (setDin ip g) Q E s ↔ Q () { s with mem := s.mem.mapDin ip g } := by
  simp [setDin, setInode, FsMem.mapDin]

end

/-! ## Code that works on one inode -/

/-- What holds while the inode in entry `ip`, number `i`, is worked on. -/
structure Active (P : Nat → Prop) (ip i : Nat) (s : Store) : Prop where
  core : Core P s.mem.sb s.blocks s.inodeOf
  uniq : s.mem.Unique
  holds : s.mem.Holds ip i
  lt : i < s.mem.sb.ninodes
  type : (s.inodeOf i).type ≠ 0
  held : s.held = []
  touched : s.touched = []

def Store.Full (s : Store) : Prop :=
  ∀ b < s.mem.sb.size, bitOf s.mem.sb s.blocks b = true

/-- The inode in entry `ip` got blocks where it had none; the new ones are logged. -/
structure Grew (P : Nat → Prop) (ip i : Nat) (s t : Store) : Prop where
  shape : t = { s with blocks := t.blocks, logged := t.logged, mem := t.mem }
  mem : ∃ x, t.mem = s.mem.mapDin ip fun _ => x
  grown : Grown P s.mem.sb s.blocks s.inodeOf t.blocks t.inodeOf
  others : ∀ j, j ≠ i → t.inodeOf j = s.inodeOf j
  logged : ∀ b ∈ s.logged, b ∈ t.logged
  fresh : ∀ k < nSlots, slotAddr s.blocks (s.inodeOf i) k = 0 →
    slotAddr t.blocks (t.inodeOf i) k ≠ 0 → slotAddr t.blocks (t.inodeOf i) k ∈ t.logged

/-- Block `b` is at a place of inode `i` in `S`, or in the free map for a new block there. -/
abbrev LogsAt (i : Nat) (S : Nat → Prop) (s t : Store) (b : Nat) : Prop :=
  ∃ k < nSlots, S k ∧ slotAddr t.blocks (t.inodeOf i) k ≠ 0 ∧
    (b = slotAddr t.blocks (t.inodeOf i) k ∨ slotAddr s.blocks (s.inodeOf i) k = 0 ∧
      b = bblock s.mem.sb (slotAddr t.blocks (t.inodeOf i) k))

/-- Inode `i` got blocks at places in `S` only, and nothing was logged for other places. The
other inodes have the blocks they had. -/
structure Local (i : Nat) (S : Nat → Prop) (s t : Store) : Prop where
  others : ∀ j, j ≠ i → t.inodeOf j = s.inodeOf j
  apart : ∀ j < s.mem.sb.ninodes, j ≠ i → (s.inodeOf j).type ≠ 0 → ∀ k,
    slotAddr t.blocks (s.inodeOf j) k = slotAddr s.blocks (s.inodeOf j) k
  slots : ∀ k < nSlots, ¬ S k →
    slotAddr t.blocks (t.inodeOf i) k = slotAddr s.blocks (s.inodeOf i) k
  logged : ∀ b ∈ t.logged, b ∈ s.logged ∨ LogsAt i S s t b

def PlaceOf (bn k : Nat) : Prop := k = dataSlot bn ∨ nDirect ≤ bn ∧ k = nDirect

section

variable {I : Store → Prop} {E : Stop → Store → Prop} {P S S' : Nat → Prop} {s t u : Store}
  {ip i k bn : Nat}

theorem Local.refl (i : Nat) (S : Nat → Prop) (s : Store) : Local i S s s :=
  ⟨fun _ _ => rfl, fun _ _ _ _ _ => rfl, fun _ _ _ => rfl, fun _ hb => .inl hb⟩

theorem Local.mono (h : Local i S s t) (hS : ∀ k, S k → S' k) : Local i S' s t := by
  refine ⟨h.others, h.apart, fun k hk hn => h.slots k hk fun hs => hn (hS k hs), fun b hb => ?_⟩
  rcases h.logged b hb with hold | ⟨k, hk, hs, hnew⟩
  · exact .inl hold
  · exact .inr ⟨k, hk, hS k hs, hnew⟩

theorem Local.trans (h : Local i S s t) (h' : Local i S t u) (hsb : t.mem.sb = s.mem.sb)
    (hst : ∀ k < nSlots, slotAddr s.blocks (s.inodeOf i) k ≠ 0 →
      slotAddr t.blocks (t.inodeOf i) k = slotAddr s.blocks (s.inodeOf i) k)
    (htu : ∀ k < nSlots, slotAddr t.blocks (t.inodeOf i) k ≠ 0 →
      slotAddr u.blocks (u.inodeOf i) k = slotAddr t.blocks (t.inodeOf i) k) :
    Local i S s u := by
  refine ⟨fun j hj => (h'.others j hj).trans (h.others j hj), fun j hj hji htj k => ?_,
    fun k hk hn => (h'.slots k hk hn).trans (h.slots k hk hn), fun b hb => ?_⟩
  · have hnext := h'.apart j (hsb ▸ hj) hji (by rw [h.others j hji]; exact htj) k
    rw [h.others j hji] at hnext
    exact hnext.trans (h.apart j hj hji htj k)
  rcases h'.logged b hb with hold | ⟨k, hk, hs, hne, hnew⟩
  · rcases h.logged b hold with hold | ⟨k, hk, hs, hne, hnew⟩
    · exact .inl hold
    · have hsame := htu k hk hne
      rw [← hsame] at hne hnew
      exact .inr ⟨k, hk, hs, hne, hnew⟩
  · rw [hsb] at hnew
    refine .inr ⟨k, hk, hs, hne, hnew.imp id fun hz => ⟨?_, hz.2⟩⟩
    by_contra hold
    exact hold ((hst k hk hold).symm.trans hz.1)

theorem Active.din (h : Active P ip i s) : (s.mem.itable ip).din = s.inodeOf i :=
  (inodeOf_of_holds h.uniq h.lt h.holds).symm

theorem Active.tidy (h : Active P ip i s) : s.Tidy := by
  intro b hb
  rw [h.touched] at hb
  cases hb

theorem Active.ready (h : Active P ip i s) : s.Ready := by
  refine ⟨h.core.sbOk, h.tidy, fun b hb => ?_⟩
  rw [h.held] at hb
  cases hb

theorem Active.not_held (h : Active P ip i s) (b : Nat) : b ∉ s.held := by
  rw [h.held]
  exact List.not_mem_nil

theorem Active.slot_used (h : Active P ip i s) (hk : k < nSlots)
    (hne : slotAddr s.blocks (s.inodeOf i) k ≠ 0) :
    usedBlock s.mem.sb s.blocks (slotAddr s.blocks (s.inodeOf i) k) :=
  (h.core.used h.lt hk h.type hne).1

theorem Active.grew_refl (h : Active P ip i s) : Grew P ip i s s :=
  ⟨rfl, ⟨_, (mapDin_id rfl).symm⟩, h.core.grown_refl, fun _ _ => rfl, fun _ hb => hb,
    fun _ _ hz hne => absurd hz hne⟩

theorem Grew.sb (h : Grew P ip i s t) : t.mem.sb = s.mem.sb := by
  obtain ⟨x, hx⟩ := h.mem
  rw [hx, mapDin_sb]

theorem Grew.trans (h : Grew P ip i s t) (hs : Active P ip i s) (h' : Grew P ip i t u) :
    Grew P ip i s u := by
  refine ⟨?_, ?_, ?_, fun j hj => (h'.others j hj).trans (h.others j hj),
    fun b hb => h'.logged b (h.logged b hb), ?_⟩
  · rw [h'.shape, h.shape]
  · obtain ⟨x, hx⟩ := h.mem
    obtain ⟨y, hy⟩ := h'.mem
    exact ⟨y, by rw [hy, hx, mapDin_mapDin]⟩
  · have h'' := h'.grown
    rw [h.sb] at h''
    exact h.grown.trans h''
  · intro k hk hz hne
    by_cases ht : slotAddr t.blocks (t.inodeOf i) k = 0
    · exact h'.fresh k hk ht hne
    · have heq := h'.grown.slots i (h.sb ▸ hs.lt)
        (by rw [h.grown.type hs.lt hs.type]; exact hs.type) k hk ht
      rw [heq]
      exact h'.logged _ (h.fresh k hk hz ht)

theorem Grew.active (h : Grew P ip i s t) (hs : Active P ip i s) : Active P ip i t := by
  obtain ⟨x, hx⟩ := h.mem
  have hheld : t.held = s.held := by rw [h.shape]
  have htouched : t.touched = s.touched := by rw [h.shape]
  refine ⟨?_, ?_, ?_, ?_, ?_, ?_, ?_⟩
  · rw [h.sb]
    exact h.grown.core
  · rw [hx]
    exact hs.uniq.mapDin
  · rw [hx]
    exact mapDin_holds.mpr hs.holds
  · rw [h.sb]
    exact hs.lt
  · rw [h.grown.type hs.lt hs.type]
    exact hs.type
  · rw [hheld, hs.held]
  · rw [htouched, hs.touched]

theorem Grew.node (h : Grew P ip i s t) (hs : Active P ip i s) :
    nodeOf t.blocks (t.inodeOf i) = nodeOf s.blocks (s.inodeOf i) :=
  h.grown.nodes i hs.lt hs.type

theorem Grew.outstanding (h : Grew P ip i s t) : t.outstanding = s.outstanding := by
  rw [h.shape]

theorem Grew.trans' (h : Grew P ip i s t) (ho : s.Trans E) : t.Trans E := by
  unfold Store.Trans
  rw [h.outstanding]
  exact ho

/-- Changes above the inode table only change the inode in entry `ip`. -/
theorem Active.inodeOf_grow (h : Active P ip i s) {g : Dinode → Dinode}
    (hm : t.mem = s.mem.mapDin ip g) (hlow : ∀ b < s.mem.sb.bmapstart, t.blocks b = s.blocks b) :
    t.inodeOf = upd s.inodeOf i (g (s.inodeOf i)) :=
  inodeOf_mapDin h.uniq h.lt h.holds hm fun j hj _ =>
    diskInode_congr (hlow _ (h.core.sbOk.inodes j hj))

/-- The store after `balloc` gave `a` to the place `k` of the inode in entry `ip`. -/
theorem Active.grewAddr (h : Active P ip i s) {a : Nat} (hk : k ≤ nDirect)
    (hzero : (s.inodeOf i).addr k = 0) (hge : s.mem.sb.nmeta ≤ a) (ha : a < s.mem.sb.size)
    (hbit : bitOf s.mem.sb s.blocks a = false)
    (ht : t = { s with
      blocks := allocBlock s.mem.sb s.blocks a, logged := a :: bblock s.mem.sb a :: s.logged
      mem := s.mem.mapDin ip fun x => x.setAddr k a }) :
    Grew P ip i s t ∧ Local i (· = k) s t ∧
      t.inodeOf = upd s.inodeOf i ((s.inodeOf i).setAddr k a) := by
  subst ht
  have hf := h.inodeOf_grow (t := { s with
      blocks := allocBlock s.mem.sb s.blocks a, logged := a :: bblock s.mem.sb a :: s.logged
      mem := s.mem.mapDin ip fun x => x.setAddr k a }) (g := fun x => x.setAddr k a) rfl
    fun b hb => h.core.allocBlock_low hge ha hb
  have hslots : ∀ k', slotAddr (allocBlock s.mem.sb s.blocks a)
      (upd s.inodeOf i ((s.inodeOf i).setAddr k a) i) k' =
        if k' = k then a else slotAddr s.blocks (s.inodeOf i) k' := by
    intro k'
    rw [upd_same, slotAddr_setAddr hk hzero, h.core.slotAddr_alloc ha hbit h.lt h.type]
    simp [allocBlock]
  have hne : a ≠ 0 := by
    have := h.core.sbOk.bitmap a ha
    omega
  have hothers : ∀ j, j ≠ i → Store.inodeOf _ j = s.inodeOf j := fun j hj => by
    rw [hf, upd_other hj]
  refine ⟨⟨rfl, ⟨_, rfl⟩, ?_, hothers, fun b hb => by simp [hb], ?_⟩,
    ⟨hothers, fun j hj _ htj k => h.core.slotAddr_alloc ha hbit hj htj k, fun k' _ hk' => ?_,
      fun b hb => ?_⟩, hf⟩
  · rw [hf]
    exact h.core.growAddr h.lt h.type hk hzero hge ha hbit
  · intro k' _ hz hne
    rw [hf, hslots] at hne ⊢
    split
    · exact List.mem_cons_self
    · rename_i hkk
      rw [if_neg hkk] at hne
      exact absurd hz hne
  · rw [hf, hslots, if_neg hk']
  · refine or_iff_not_imp_left.mpr fun hnew => ⟨k, by unfold nSlots; omega, rfl, ?_⟩
    rw [hf, hslots, if_pos rfl]
    refine ⟨hne, (List.mem_cons.mp hb).imp id fun hb => ⟨?_, ?_⟩⟩
    · rw [slotAddr_direct _ _ hk, hzero]
    · exact (List.mem_cons.mp hb).resolve_right hnew

theorem bmapAddr_spec {Q : Nat → Store → Prop} (h : Active P ip i s) (hk : k ≤ nDirect)
    (ho : (s.inodeOf i).addr k = 0 → s.Trans E)
    (hsame : (s.inodeOf i).addr k ≠ 0 → Q ((s.inodeOf i).addr k) s)
    (hfull : (s.inodeOf i).addr k = 0 → s.Full → Q 0 s)
    (hgrow : ∀ a t, (s.inodeOf i).addr k = 0 → a ≠ 0 → Grew P ip i s t → Local i (· = k) s t →
      t.inodeOf = upd s.inodeOf i ((s.inodeOf i).setAddr k a) → Q a t) :
    wp I (bmapAddr ip k) Q E s := by
  simp only [bmapAddr, wp_bind, wp_inode, h.din]
  refine wp_ite (fun hzero => ?_) fun hne => ?_
  · simp only [wp_bind]
    refine balloc_spec h.ready (ho hzero) h.core.low (fun hall => ?_) fun a hge ha hbit => ?_
    · simpa using hfull hzero hall
    · have hne : a ≠ 0 := by
        have := h.core.sbOk.bitmap a ha
        omega
      rw [if_neg hne]
      simp only [wp_bind, wp_setDin, wp_pure]
      obtain ⟨hg, hloc, hf⟩ := h.grewAddr hk hzero hge ha hbit rfl
      exact hgrow a _ hzero hne hg hloc hf
  · rw [wp_pure]
    exact hsame hne

/-- The store after `balloc` gave `a` to the entry `k` of the indirect block. -/
theorem Active.grewEntry (h : Active P ip i s) {a ind : Nat} (hk : k < nIndirect)
    (hind : (s.inodeOf i).addr nDirect = ind) (hne : ind ≠ 0)
    (hzero : slotAddr s.blocks (s.inodeOf i) (nDirect + 1 + k) = 0)
    (hge : s.mem.sb.nmeta ≤ a) (ha : a < s.mem.sb.size)
    (hbit : bitOf s.mem.sb s.blocks a = false)
    (ht : t = { s with
      blocks := upd (allocBlock s.mem.sb s.blocks a) ind
        (putLE (allocBlock s.mem.sb s.blocks a ind) (4 * k) 4 a)
      logged := ind :: a :: bblock s.mem.sb a :: s.logged }) :
    Grew P ip i s t ∧ Local i (fun k' => k' = nDirect + 1 + k ∨ k' = nDirect) s t ∧
      t.inodeOf = s.inodeOf ∧ slotAddr t.blocks (t.inodeOf i) (nDirect + 1 + k) = a := by
  subst hind
  have hgrown := h.core.growEntry h.lt h.type hne hk hzero hge ha hbit
  have hf : t.inodeOf = s.inodeOf := by
    refine inodeOf_congr (by rw [ht]) fun j hj => diskInode_congr ?_
    rw [ht]
    exact hgrown.low _ (h.core.sbOk.inodes j hj)
  have hlt : a < 2 ^ 32 := by
    have := h.core.sbOk.small
    omega
  have hslots : ∀ k', slotAddr t.blocks (t.inodeOf i) k' =
      if k' = nDirect + 1 + k then a else slotAddr s.blocks (s.inodeOf i) k' := by
    intro k'
    rw [hf, ht, slotAddr_putEntry _ k hne hlt, h.core.slotAddr_alloc ha hbit h.lt h.type]
  have hane : a ≠ 0 := by
    have := h.core.sbOk.bitmap a ha
    omega
  have hlogged : t.logged = (s.inodeOf i).addr nDirect :: a :: bblock s.mem.sb a :: s.logged := by
    rw [ht]
  refine ⟨⟨by rw [ht], ⟨_, by rw [ht]; exact (mapDin_id rfl).symm⟩, ?_, fun j _ => by rw [hf], ?_,
    ?_⟩, ⟨fun j _ => by rw [hf], fun j hj hji htj k' => ?_, fun k' _ hk' => ?_, fun b hb => ?_⟩, hf,
    by rw [hslots, if_pos rfl]⟩
  · rw [hf, ht]
    exact hgrown
  · intro b hb
    rw [hlogged]
    simp [hb]
  · intro k' _ hz hne'
    rw [hslots] at hne' ⊢
    split
    · rw [hlogged]
      exact List.mem_cons_of_mem _ List.mem_cons_self
    · rename_i hkk
      rw [if_neg hkk] at hne'
      exact absurd hz hne'
  · -- the indirect block that is stored into is not one of another inode
    rw [← h.core.slotAddr_alloc ha hbit hj htj k', ht]
    refine slotAddr_congr (fun _ _ => rfl) (fun hnz => upd_other ?_) k'
    rw [← slotAddr_direct s.blocks _ (Nat.le_refl nDirect)] at hnz hne ⊢
    rw [← slotAddr_direct s.blocks (s.inodeOf i) (Nat.le_refl nDirect)]
    exact h.core.slot_ne h.lt hj hji (by decide) (by decide) h.type htj hne
  · rw [hslots, if_neg fun heq => hk' (.inl heq)]
  · rw [hlogged] at hb
    have hold : slotAddr t.blocks (t.inodeOf i) nDirect = (s.inodeOf i).addr nDirect := by
      rw [hslots, if_neg (by omega), slotAddr_direct _ _ (Nat.le_refl _)]
    have hnew : slotAddr t.blocks (t.inodeOf i) (nDirect + 1 + k) = a := by
      rw [hslots, if_pos rfl]
    have hlt' : nDirect + 1 + k < nSlots := by
      unfold nSlots
      omega
    rcases List.mem_cons.mp hb with hb | hb
    · exact .inr ⟨nDirect, by decide, .inr rfl, by rw [hold]; exact hne, .inl (hb.trans hold.symm)⟩
    · rcases List.mem_cons.mp hb with hb | hb
      · exact .inr ⟨_, hlt', .inl rfl, by rw [hnew]; exact hane, .inl (hb.trans hnew.symm)⟩
      · rcases List.mem_cons.mp hb with hb | hb
        · exact .inr ⟨_, hlt', .inl rfl, by rw [hnew]; exact hane, .inr ⟨hzero, by rw [hnew, hb]⟩⟩
        · exact .inl hb

/-- The entry `k` of the indirect block is found, or taken from the allocator. -/
theorem bmapEntry_spec {Q : Nat → Store → Prop} (h : Active P ip i s) (hk : k < nIndirect)
    {ind : Nat} (hind : (s.inodeOf i).addr nDirect = ind) (hne : ind ≠ 0)
    (ho : slotAddr s.blocks (s.inodeOf i) (nDirect + 1 + k) = 0 → s.Trans E)
    (hsame : slotAddr s.blocks (s.inodeOf i) (nDirect + 1 + k) ≠ 0 →
      Q (slotAddr s.blocks (s.inodeOf i) (nDirect + 1 + k)) s)
    (hfull : slotAddr s.blocks (s.inodeOf i) (nDirect + 1 + k) = 0 → s.Full → Q 0 s)
    (hgrow : ∀ a t, slotAddr s.blocks (s.inodeOf i) (nDirect + 1 + k) = 0 → a ≠ 0 →
      Grew P ip i s t → Local i (fun k' => k' = nDirect + 1 + k ∨ k' = nDirect) s t →
      t.inodeOf = s.inodeOf → slotAddr t.blocks (t.inodeOf i) (nDirect + 1 + k) = a → Q a t) :
    wp I (bmapEntry ind k) Q E s := by
  have hslot : slotAddr s.blocks (s.inodeOf i) (nDirect + 1 + k) =
      getLE (s.blocks ind) (4 * k) 4 := by
    unfold slotAddr
    rw [if_neg (by omega), hind, if_neg hne, show nDirect + 1 + k - (nDirect + 1) = k by omega]
  have hused : usedBlock s.mem.sb s.blocks ind := by
    have hd := slotAddr_direct s.blocks (s.inodeOf i) (Nat.le_refl nDirect)
    have hu := h.slot_used (k := nDirect) (by decide) (by rw [hd, hind]; exact hne)
    rwa [hd, hind] at hu
  have hlog := hused.not_log h.core.sbOk
  simp only [bmapEntry, wp_bind]
  refine wp_peek (h.not_held ind) ?_
  rw [wp_load]
  have hload : (s.lock ind).blocks ind = s.blocks ind := rfl
  rw [hload, ← hslot]
  refine wp_ite (fun hzero => ?_) fun hnz => ?_
  · have hready : (s.lock ind).Ready := by
      refine ⟨h.core.sbOk, h.tidy.lock, fun b hb => ?_⟩
      have hb : b ∈ ind :: s.held := hb
      rw [h.held, List.mem_singleton] at hb
      rw [hb]
      exact ⟨hused.1, hused.2.2⟩
    simp only [wp_bind]
    refine balloc_spec hready (ho hzero) h.core.low (fun hall => ?_) fun a hge ha hbit => ?_
    · rw [if_pos rfl]
      simp only [wp_bind, wp_pure]
      exact wp_done h.tidy (h.not_held ind) hlog (hfull hzero hall)
    · have hane : a ≠ 0 := by
        have := h.core.sbOk.bitmap a ha
        have : a < s.mem.sb.size := ha
        have : s.mem.sb.nmeta ≤ a := hge
        omega
      rw [if_neg hane]
      simp only [wp_bind, wp_pure]
      refine wp_put (s := { s with
        blocks := allocBlock s.mem.sb s.blocks a, logged := a :: bblock s.mem.sb a :: s.logged })
        h.tidy (h.not_held ind) hlog (ho hzero) ?_
      obtain ⟨hg, hloc, hf, ha'⟩ := h.grewEntry (t := Store.put { s with
        blocks := allocBlock s.mem.sb s.blocks a, logged := a :: bblock s.mem.sb a :: s.logged }
        ind fun d => putLE d (4 * k) 4 a) hk hind hne hzero hge ha hbit rfl
      exact hgrow a _ hzero hane hg hloc hf ha'
  · simp only [wp_bind, wp_pure]
    exact wp_done h.tidy (h.not_held ind) hlog (hsame hnz)

theorem dataSlot_direct (h : bn < nDirect) : dataSlot bn = bn := if_pos h

theorem dataSlot_indirect (h : nDirect ≤ bn) : dataSlot bn = nDirect + 1 + (bn - nDirect) := by
  unfold dataSlot
  rw [if_neg (by omega)]
  omega

theorem bmap_mapped {Q : Nat → Store → Prop} (h : Active P ip i s) (hbn : bn < maxFile)
    (hne : slotAddr s.blocks (s.inodeOf i) (dataSlot bn) ≠ 0)
    (hQ : Q (slotAddr s.blocks (s.inodeOf i) (dataSlot bn)) s) : wp I (bmap ip bn) Q E s := by
  unfold bmap
  refine wp_ite (fun hd => ?_) fun hd => ?_
  · rw [dataSlot_direct hd, slotAddr_direct _ _ (by omega)] at hne hQ
    exact bmapAddr_spec h (by omega) (fun hz => absurd hz hne) (fun _ => hQ)
      (fun hz => absurd hz hne) fun _ _ hz => absurd hz hne
  · rw [dataSlot_indirect (by omega)] at hne hQ
    have hind : (s.inodeOf i).addr nDirect ≠ 0 := by
      intro hz
      unfold slotAddr at hne
      rw [if_neg (by omega), if_pos hz] at hne
      exact hne rfl
    have hlt : bn - nDirect < nIndirect := by
      unfold maxFile at hbn
      omega
    rw [if_pos hlt]
    simp only [wp_bind]
    refine bmapAddr_spec h (Nat.le_refl _) (fun hz => absurd hz hind) (fun _ => ?_)
      (fun hz => absurd hz hind) fun _ _ hz => absurd hz hind
    rw [if_neg hind]
    exact bmapEntry_spec h hlt rfl hind (fun hz => absurd hz hne) (fun _ => hQ)
      (fun hz => absurd hz hne) fun _ _ hz => absurd hz hne

/-- What `bmap` says of its result: the block of the file at `bn`, or 0 because it has none
and no block is free. -/
def Mapped (i bn a : Nat) (t : Store) : Prop :=
  slotAddr t.blocks (t.inodeOf i) (dataSlot bn) = a ∧ (a = 0 → t.Full)

theorem bmap_direct {Q : Nat → Store → Prop} (h : Active P ip i s) (hbn : bn < nDirect)
    (ho : s.Trans E)
    (hQ : ∀ a t, Grew P ip i s t → Local i (PlaceOf bn) s t → Mapped i bn a t →
      (t.inodeOf i).addr nDirect = (s.inodeOf i).addr nDirect → Q a t) :
    wp I (bmap ip bn) Q E s := by
  have hslot : ∀ u : Store, slotAddr u.blocks (u.inodeOf i) (dataSlot bn) = (u.inodeOf i).addr bn :=
    fun u => by rw [dataSlot_direct hbn, slotAddr_direct _ _ (by omega)]
  unfold bmap
  rw [if_pos hbn]
  refine bmapAddr_spec h (by omega) (fun _ => ho) (fun hne => ?_) (fun hz hfull => ?_)
    fun a t hz hne hg hloc hf => ?_
  · exact hQ _ _ h.grew_refl (.refl i _ s) ⟨hslot s, fun hz => absurd hz hne⟩ rfl
  · exact hQ _ _ h.grew_refl (.refl i _ s) ⟨by rw [hslot, hz], fun _ => hfull⟩ rfl
  · refine hQ a t hg (hloc.mono fun k hk => .inl ?_) ⟨?_, fun hz => absurd hz hne⟩ ?_
    · rw [hk, dataSlot_direct hbn]
    · rw [hslot, hf, upd_same, Dinode.addr_setAddr_same _ _ (by omega)]
    · rw [hf, upd_same, Dinode.addr_setAddr_other _ _ (by omega)]

/-- `bmap` inside a transaction. -/
theorem bmap_spec {Q : Nat → Store → Prop} (h : Active P ip i s) (hbn : bn < maxFile)
    (ho : s.Trans E)
    (hQ : ∀ a t, Grew P ip i s t → Local i (PlaceOf bn) s t → Mapped i bn a t → Q a t) :
    wp I (bmap ip bn) Q E s := by
  by_cases hd : bn < nDirect
  · exact bmap_direct h hd ho fun a t hg hloc hm _ => hQ a t hg hloc hm
  · have hlt : bn - nDirect < nIndirect := by
      unfold maxFile at hbn
      omega
    have hslot : dataSlot bn = nDirect + 1 + (bn - nDirect) := dataSlot_indirect (by omega)
    unfold bmap
    rw [if_neg hd, if_pos hlt]
    simp only [wp_bind]
    -- With the indirect block `ind` in place, the rest is the entry.
    have hrest : ∀ ind t, Grew P ip i s t → Local i (PlaceOf bn) s t → ind ≠ 0 →
        (t.inodeOf i).addr nDirect = ind → wp I (bmapEntry ind (bn - nDirect)) Q E t := by
      intro ind t hg hloc hne hind
      have ht := hg.active h
      refine bmapEntry_spec ht hlt hind hne (fun _ => hg.trans' ho) (fun hnz => ?_)
        (fun hz hfull => ?_) fun a u hz hane hg' hloc' hf ha => ?_
      · exact hQ _ t hg hloc ⟨by rw [hslot], fun hz => absurd hz hnz⟩
      · exact hQ 0 t hg hloc ⟨by rw [hslot, hz], fun _ => hfull⟩
      · refine hQ a u (hg.trans h hg') (hloc.trans (hloc'.mono fun k hk => ?_) hg.sb
          (hg.grown.slots i h.lt h.type) (hg'.grown.slots i ht.lt ht.type))
          ⟨by rw [hslot, ha], fun hz => absurd hz hane⟩
        rw [PlaceOf, hslot]
        exact hk.imp id fun hk => ⟨by omega, hk⟩
    refine bmapAddr_spec h (Nat.le_refl _) (fun _ => ho) (fun hne => ?_) (fun hz hfull => ?_)
      fun a t hz hne hg hloc hf => ?_
    · rw [if_neg hne]
      exact hrest _ s h.grew_refl (.refl i _ s) hne rfl
    · rw [if_pos rfl, wp_pure]
      refine hQ 0 s h.grew_refl (.refl i _ s) ⟨?_, fun _ => hfull⟩
      unfold slotAddr
      rw [if_neg (by omega), if_pos hz]
    · rw [if_neg hne]
      refine hrest a t hg (hloc.mono fun k hk => .inr ⟨by omega, hk⟩) hne ?_
      rw [hf, upd_same, Dinode.addr_setAddr_same _ _ (by omega)]

end

end Xv6.Fs
