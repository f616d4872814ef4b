import Xv6.Kernel.Fs.Sharing

/-! # The inode table as a cache

Along every run of the processes the invariant of the file system holds, with the
references of all processes. Without holes a valid entry is then equal to the inode
on disk, and an entry can be given up and read again.
-/

namespace Xv6.Fs

open Lib

/-- `iput` frees an inode to which there may be new references by then. -/
theorem iputFree_inv {I : Store → Prop} {E : Stop → Store → Prop} {st : Bool} {nt : Prop}
    {L U : List Nat} {s : Store} {ip i : Nat} {Q : Unit → Store → Prop} (ho : s.Trans E)
    (h : Inv st nt L U s) (hh : s.mem.Holds ip i)
    (hlast : s.mem.fileRefs ip = 0 ∧ ip ∉ L ∧ ¬ (nt ∧ ip ∈ U))
    (hQ : ∀ t, Inv st nt L U t → t.mem.ftable = s.mem.ftable →
      (∀ jp < nInode, jp ≠ ip → 0 < (s.mem.itable jp).ref → (s.mem.itable jp).valid = true →
        (t.mem.itable jp).valid = true) → Q () t) :
    wp I (iputFree ip) Q E s := by
  simp only [iputFree, releasesleep, wp_bind]
  refine itrunc_inv ho h hh fun t hdid _ haddr => ?_
  have hinv := hdid.inv
  obtain ⟨_, _, hdt⟩ := hinv.disk
  rw [wp_setDin]
  refine iupdate_spec hdt.core.sbOk hinv.tidy hinv.held (hdid.outline.trans' ho) ?_
  rw [wp_setInode, wp_setInode]
  have hdin := (hinv.node_holds hdid.holds).2.2
  have hfile : t.mem.fileRefs ip = 0 := by
    unfold FsMem.fileRefs at hlast ⊢
    rw [hdid.outline.ftable]
    exact hlast.1
  have hfin : ∀ (w : Store) (x : Inode), x.inum = (t.mem.itable ip).inum →
      x.ref = (t.mem.itable ip).ref → x.valid = false → w.mem = t.mem.setEntry ip x →
      w.blocks = upd t.blocks (iblock t.mem.sb i)
        (Dinode.write { t.inodeOf i with type := 0 } (t.blocks (iblock t.mem.sb i)) (ioff i)) →
      w.held = t.held ∧ w.touched = t.touched → Q () w := by
    intro w x hxi hxr hxv hm hb hshape
    obtain ⟨hw, -⟩ := hinv.emptied L U hdid.holds haddr ⟨hxi.trans hdid.holds.inum, fun _ => hxv⟩
      rfl (fun jp => by simp [hxr]) (fun jp => ⟨id, id⟩) ⟨hfile, hlast.2⟩ hm hb hshape
    refine hQ w hw (by rw [hm]; exact hdid.outline.ftable) fun jp hjp hne hpos hv => ?_
    rw [hm, setEntry_other hne]
    exact (hdid.outline.entry jp hjp hpos (by rw [hdid.ref]; exact hpos)).2 hv
  refine hfin _ { t.mem.itable ip with
    din := { t.inodeOf i with type := 0 }, valid := false, locked := false } rfl rfl rfl ?_
    (hinv.freed_blocks hdid.holds rfl) ⟨rfl, rfl⟩
  simp [FsMem.setEntry, FsMem.mapDin, Store.updated, Store.put, hdin]

/-- All processes see a sound file system. -/
structure Cached (s : Shared) : Prop where
  owned : Owned s
  inv : Inv true False [] (s.refs.map Prod.snd) s.store
  files : ∀ ip, s.store.mem.fileRefs ip = 0
  valid : ∀ ip q, s.holder ip = some q → (s.store.mem.itable ip).valid = true

section

variable {s t : Shared} {p ip : Nat}

theorem Owned.ref_pos (h : Owned s) (howns : (p, ip) ∈ s.refs) :
    0 < (s.store.mem.itable ip).ref := by
  have href : (s.store.mem.itable ip).ref = _ := h.ref ip (h.lt _ howns)
  have hpos := List.count_pos_iff.mpr (List.mem_map_of_mem (f := Prod.snd) howns)
  dsimp only at hpos
  omega

theorem Cached.holds (h : Cached s) (hq : s.holder ip = some p) :
    s.store.mem.Holds ip (s.store.mem.itable ip).inum :=
  ⟨h.owned.lt _ (h.owned.owner ip p hq), h.owned.ref_pos (h.owned.owner ip p hq),
    h.valid ip p hq, rfl⟩

/-- The store after a step: the invariant with references `U`, and the copies in memory stay
valid, those in `D` apart. -/
structure Steps (D : Nat → Prop) (U : List Nat) (s u : Store) : Prop where
  inv : Inv true False [] U u
  ftable : u.mem.ftable = s.mem.ftable
  valid : ∀ ip < nInode, ¬ D ip → 0 < (s.mem.itable ip).ref → 0 < (u.mem.itable ip).ref →
    (s.mem.itable ip).valid = true → (u.mem.itable ip).valid = true

abbrev Shared.Keeps (s : Shared) (refs : List (Nat × Nat)) : Store → Prop :=
  Steps (fun _ => False) (refs.map Prod.snd) s.store

theorem Outline.steps {D : Nat → Prop} {U : List Nat} {s u : Store} (h : Outline s u)
    (hinv : Inv true False [] U u) : Steps D U s u :=
  ⟨hinv, h.ftable, fun ip hip _ hs hu => (h.entry ip hip hs hu).2⟩

/-- A locked inode was locked before or is valid now. -/
theorem Cached.next {D : Nat → Prop} (h : Cached s) (ho : Owned t)
    (hu : Steps D (t.refs.map Prod.snd) s.store t.store)
    (hlock : ∀ ip q, t.holder ip = some q → s.holder ip = some q ∧ ¬ D ip ∨
      (t.store.mem.itable ip).valid = true) : Cached t := by
  refine ⟨ho, hu.inv, fun ip => ?_, fun ip q hq => ?_⟩
  · have hf := h.files ip
    unfold FsMem.fileRefs at hf ⊢
    rw [hu.ftable]
    exact hf
  · rcases hlock ip q hq with ⟨hs, hD⟩ | hv
    · have howns := h.owned.owner ip q hs
      exact hu.valid ip (h.owned.lt _ howns) hD (h.owned.ref_pos howns)
        (ho.ref_pos (ho.owner ip q hq)) (h.valid ip q hs)
    · exact hv

theorem Cached.same (h : Cached s) (ho : Owned t)
    (hu : s.Keeps t.refs t.store)
    (hholder : t.holder = s.holder) : Cached t :=
  h.next ho hu fun _ _ hq => .inl ⟨hholder ▸ hq, id⟩

theorem Cached.locks (h : Cached s) (ho : Owned t)
    (hu : s.Keeps t.refs t.store)
    (hholder : t.holder = upd s.holder ip (some p))
    (hv : (t.store.mem.itable ip).valid = true) : Cached t := by
  refine h.next ho hu fun jp q hq => ?_
  by_cases hjp : jp = ip
  · rw [hjp]
    exact .inr hv
  · rw [hholder, upd_other hjp] at hq
    exact .inl ⟨hq, id⟩

theorem Cached.unlocks (h : Cached s) (ho : Owned t)
    (hu : Steps (· = ip) (t.refs.map Prod.snd) s.store t.store)
    (hholder : t.holder = upd s.holder ip none) : Cached t := by
  refine h.next ho hu fun jp q hq => ?_
  rw [hholder] at hq
  by_cases hjp : jp = ip
  · rw [hjp, upd_same] at hq
    cases hq
  · rw [upd_other hjp] at hq
    exact .inl ⟨hq, hjp⟩

/-- No stop is ruled out: a step that panics is the end of the run. -/
theorem trans_all (s : Store) : s.Trans fun _ _ => True := .inr fun _ => trivial

theorem Cached.work (h : Cached s) (hq : s.holder ip = some p) {w : Work}
    (hfits : w.fits s.store.mem.sb.ninodes (s.store.mem.itable ip).din.type) :
    wp (fun _ => True) (w.prog ip) (fun _ => s.Keeps s.refs)
      (fun _ _ => True) s.store := by
  have hh := h.holds hq
  cases w with
  | read dst off n =>
      simp only [Work.prog, wp_bind, wp_pure]
      exact readi_inv (.inl rfl) h.inv hh n.isLt fun _ _ hd _ _ _ => hd.outline.steps hd.inv
  | write src off n =>
      have hty : (s.store.node (s.store.mem.itable ip).inum).type =
          (s.store.mem.itable ip).din.type := by
        rw [s.store.node_type, ← (h.inv.node_holds hh).2.2]
      simp only [Work.prog, wp_bind, wp_pure]
      refine writei_inv (trans_all _) h.inv hh n.isLt (fun hdir => ?_)
        (fun _ => (Outline.refl _).steps h.inv) fun _ _ _ _ _ _ hd => hd.outline.steps hd.inv
      rw [hty] at hdir
      simpa [Work.fits, hdir] using hfits
  | trunc =>
      exact itrunc_inv (trans_all _) h.inv hh fun _ hd _ _ => hd.outline.steps hd.inv
  | fields major minor nlink =>
      simp only [Work.prog, wp_bind]
      exact update_inv (trans_all _) h.inv hh (fun _ => ⟨rfl, rfl, rfl⟩)
        fun _ hd _ => hd.outline.steps hd.inv

theorem oneLess_erase (howns : (p, ip) ∈ s.refs) :
    OneLess ip [] (s.refs.map Prod.snd) [] ((s.refs.erase (p, ip)).map Prod.snd) := by
  refine ⟨fun jp => ?_, fun jp => ⟨id, fun hjp => ?_⟩⟩
  · have hc := count_map_erase howns jp
    rw [List.count_nil, Nat.zero_add, Nat.zero_add]
    exact hc
  · obtain ⟨r, hr, rfl⟩ := List.mem_map.mp hjp
    exact List.mem_map_of_mem (List.mem_of_mem_erase hr)

theorem Cached.ialloc (h : Cached s) {i : Nat} (type : BitVec 16)
    (hi : i < s.store.mem.sb.ninodes) :
    wp (fun _ => True) (iclaim s.store.mem.sb type i)
      (fun _ => s.Keeps s.refs) (fun _ _ => True) s.store := by
  refine iclaim_spec (trans_all _) h.inv (fun _ => (Outline.refl _).steps h.inv) fun hfree => ?_
  exact ⟨(h.inv.claim hi hfree type).1, rfl, fun _ _ _ _ _ hv => hv⟩

theorem Cached.iputTest (h : Cached s) (howns : (p, ip) ∈ s.refs) :
    wp (fun _ => True) (Fs.iputTest ip) (fun freeing u =>
      if freeing then s.Keeps s.refs u ∧ (u.mem.itable ip).valid = true
      else s.Keeps (s.refs.erase (p, ip)) u) (fun _ _ => True) s.store := by
  simp only [Fs.iputTest, wp_bind, wp_inode]
  refine wp_ite (fun hc => ?_) fun _ => ?_
  · have hh : s.store.mem.Holds ip _ :=
      ⟨h.owned.lt _ howns, h.owned.ref_pos howns, hc.2.1, rfl⟩
    simp only [wp_bind]
    refine acquiresleep_spec (fun _ => trivial) h.inv hh fun u hu _ hframe hhu _ => ?_
    exact (wp_pure _).mpr ⟨hframe.toOutline.steps hu, hhu.valid⟩
  · simp only [wp_bind, wp_setInode, wp_pure]
    obtain ⟨hu, -, hframe⟩ := h.inv.unref (oneLess_erase howns) rfl
    exact hframe.toOutline.steps hu

theorem Cached.step (h : Cached s) {e : Event} (hst : s.step e = some t) : Cached t := by
  have ho := h.owned.move (Shared.step_move h.owned hst)
  cases e with
  | beginOp p =>
      simp only [Shared.step, Option.ite_none_right_eq_some] at hst
      have hw : wp (fun _ => True) beginOp (fun _ => s.Keeps s.refs)
          (fun _ _ => True) s.store :=
        wp_beginOp.mpr ⟨h.inv.relog _ _ _ rfl, rfl, fun _ _ _ _ _ hv => hv⟩
      obtain ⟨_, u, hu, rfl⟩ := Shared.run_spec hst.2 hw
      exact h.same ho hu rfl
  | endOp p =>
      simp only [Shared.step, Option.ite_none_right_eq_some] at hst
      have hw : wp (fun _ => True) endOp (fun _ => s.Keeps s.refs)
          (fun _ _ => True) s.store :=
        wp_endOp.mpr ⟨fun _ => trivial, h.inv.relog _ _ _ rfl, rfl, fun _ _ _ _ _ hv => hv⟩
      obtain ⟨_, u, hu, rfl⟩ := Shared.run_spec hst.2 hw
      exact h.same ho hu rfl
  | iget p i =>
      simp only [Shared.step, Option.ite_none_right_eq_some] at hst
      have hw : wp (fun _ => True) (iget i) (fun ip => s.Keeps ((p, ip) :: s.refs))
          (fun _ _ => True) s.store :=
        iget_spec (fun _ => trivial) h.inv hst.1.2 False.elim
          fun ip u hinv _ hframe _ => hframe.toOutline.steps hinv
      obtain ⟨ip, u, hu, rfl⟩ := Shared.run_spec hst.2 hw
      exact h.same ho hu rfl
  | idup p ip =>
      simp only [Shared.step, Option.ite_none_right_eq_some] at hst
      obtain ⟨⟨-, howns⟩, hst⟩ := hst
      have howns : (p, ip) ∈ s.refs := of_decide_eq_true howns
      have hw : wp (fun _ => True) (idup ip) (fun jp => s.Keeps ((p, jp) :: s.refs))
          (fun _ _ => True) s.store :=
        idup_more h.inv (List.mem_map_of_mem (f := Prod.snd) howns)
          fun u hinv _ hframe => hframe.toOutline.steps hinv
      obtain ⟨jp, u, hu, rfl⟩ := Shared.run_spec hst hw
      exact h.same ho hu rfl
  | ilock p ip =>
      simp only [Shared.step, Option.ite_none_right_eq_some] at hst
      obtain ⟨⟨-, howns, -⟩, hst⟩ := hst
      have howns : (p, ip) ∈ s.refs := of_decide_eq_true howns
      have hw : wp (fun _ => True) (ilock ip) (fun _ u => s.Keeps s.refs u ∧
          (u.mem.itable ip).valid = true) (fun _ _ => True) s.store :=
        ilock_spec benign_all h.inv (h.owned.lt _ howns) (h.owned.ref_pos howns)
          (fun _ _ => trivial) fun u hinv _ hframe hh => ⟨hframe.toOutline.steps hinv, hh.valid⟩
      obtain ⟨_, u, ⟨hu, hv⟩, rfl⟩ := Shared.run_spec hst hw
      exact h.locks ho hu rfl hv
  | iunlock p ip =>
      simp only [Shared.step, Option.ite_none_right_eq_some] at hst
      obtain ⟨⟨-, hq⟩, hst⟩ := hst
      have hh := h.holds hq
      have hw : wp (fun _ => True) (iunlock ip)
          (fun _ => Steps (· = ip) (s.refs.map Prod.snd) s.store) (fun _ _ => True) s.store :=
        iunlock_spec benign_all h.inv hh.lt hh.ref
          fun u hinv _ hframe => hframe.toOutline.steps hinv
      obtain ⟨_, u, hu, rfl⟩ := Shared.run_spec hst hw
      exact h.unlocks ho hu rfl
  | ialloc p type i =>
      simp only [Shared.step, Option.ite_none_right_eq_some] at hst
      obtain ⟨_, u, hu, rfl⟩ := Shared.run_spec hst.2 (h.ialloc type hst.1.2)
      exact h.same ho hu rfl
  | work p ip w =>
      simp only [Shared.step, Option.ite_none_right_eq_some] at hst
      obtain ⟨⟨-, hq, hfits⟩, hst⟩ := hst
      obtain ⟨_, u, hu, rfl⟩ := Shared.run_spec hst (h.work hq hfits)
      exact h.same ho hu rfl
  | iput p ip =>
      simp only [Shared.step, Option.ite_none_right_eq_some] at hst
      obtain ⟨⟨-, howns, -⟩, hst⟩ := hst
      have howns : (p, ip) ∈ s.refs := of_decide_eq_true howns
      obtain ⟨freeing, u, hu, rfl⟩ := Shared.run_spec hst (h.iputTest howns)
      cases freeing with
      | true => exact h.locks ho hu.1 rfl hu.2
      | false => exact h.same ho hu rfl
  | iputFree p =>
      simp only [Shared.step] at hst
      split at hst
      · rename_i ip hput
        have hh := h.holds (h.owned.freeing p ip hput)
        have hw : wp (fun _ => True) (iputFree ip)
            (fun _ => Steps (· = ip) (s.refs.map Prod.snd) s.store) (fun _ _ => True) s.store :=
          iputFree_inv (trans_all _) h.inv hh ⟨h.files ip, List.not_mem_nil, fun hc => hc.1⟩
            fun u hu hft hv => ⟨hu, hft, fun jp hjp hne hpos _ => hv jp hjp hne hpos⟩
        obtain ⟨_, u, hu, rfl⟩ := Shared.run_spec hst hw
        exact h.unlocks ho hu rfl
      · cases hst
  | iputDrop p =>
      simp only [Shared.step] at hst
      split at hst
      · rename_i ip hput
        have howns := (h.owned.dropping p ip hput).1
        have hw : wp (fun _ => True) (iputDrop ip)
            (fun _ => s.Keeps (s.refs.erase (p, ip)))
            (fun _ _ => True) s.store := by
          rw [iputDrop, wp_setInode]
          obtain ⟨hu, -, hframe⟩ := h.inv.unref (oneLess_erase howns) rfl
          exact hframe.toOutline.steps hu
        obtain ⟨_, u, hu, rfl⟩ := Shared.run_spec hst hw
        exact h.same ho hu rfl
      · cases hst

end

/-! ## From boot on -/

/-- The file system when the kernel starts: the disk is sound and no file has a hole, the
inode table is empty and no file is open. -/
structure Fresh (s : Store) : Prop where
  disk : Disk true (fun _ => False) s.mem.sb s.blocks s.inodeOf
  dirs : ∀ i, (s.node i).type = tDir → (s.node i).size % direntSize = 0
  table : ∀ ip < nInode, (s.mem.itable ip).ref = 0
  files : ∀ f, (s.mem.ftable f).type = .none
  fds : ∀ p fd, (s.mem.proc p).ofile fd = none
  held : s.held = []
  touched : s.touched = []

theorem Fresh.fileRefs {s : Store} (h : Fresh s) (ip : Nat) : s.mem.fileRefs ip = 0 := by
  refine List.countP_eq_zero.mpr fun f _ => ?_
  simp [h.files f]

theorem Fresh.inv {s : Store} (h : Fresh s) (nt : Prop) : Inv true nt [] [] s := by
  have hfree : ∀ ip, ip < nInode → ¬ 0 < (s.mem.itable ip).ref := by
    intro ip hip hpos
    rw [h.table ip hip] at hpos
    exact absurd hpos (Int.lt_irrefl 0)
  have hfiles : ∀ f, ¬ ((s.mem.ftable f).type = .inode ∨ (s.mem.ftable f).type = .device) := by
    intro f
    simp [h.files f]
  refine ⟨⟨_, fun _ _ hc => hc, h.disk⟩, fun ip jp hip _ hpos _ _ => absurd hpos (hfree ip hip),
    h.held, h.touched, fun ip hip hpos => absurd hpos (hfree ip hip),
    fun ip i hh => absurd hh.ref (hfree ip hh.lt), fun ip i hh => absurd hh.ref (hfree ip hh.lt),
    fun ip hip => ?_, fun ip hip => ?_, fun ip hip hc => ?_, fun f _ _ => h.files f,
    fun f _ hf => absurd hf (hfiles f), fun f _ hf => absurd (.inl hf) (hfiles f),
    fun p fd f hf => ?_, h.dirs⟩
  · rw [h.table ip hip, h.fileRefs]
    rfl
  · rcases hip with hip | hip <;> cases hip
  · rw [h.fileRefs] at hc
    rcases hc with hc | hc | hc
    · exact absurd hc (Nat.lt_irrefl 0)
    · cases hc
    · cases hc.2
  · rw [h.fds] at hf
    cases hf

theorem Owned.unlocked_of_free {s : Shared} (h : Owned s) {jp : Nat} (hjp : jp < nInode)
    (hz : (s.store.mem.itable jp).ref = 0) : (s.store.mem.itable jp).locked = false := by
  have hl : (s.store.mem.itable jp).locked = _ := h.locked jp hjp
  cases hq : s.holder jp with
  | none =>
      rw [hl, hq]
      rfl
  | some q =>
      have := h.ref_pos (h.owner jp q hq)
      omega

theorem Shared.Boot.cached {s : Shared} (h : s.Boot) (hs : Fresh s.store) : Cached s := by
  refine ⟨h.owned, ?_, hs.fileRefs, fun ip q hq => ?_⟩
  · rw [h.refs]
    exact hs.inv False
  · rw [h.holder] at hq
    cases hq

/-- An entry that is given up and found again reads the inode that it held. -/
theorem Cached.reload {s : Shared} (h : Cached s) {ip i : Nat} (hh : s.store.mem.Holds ip i)
    (x : Inode) (hx : x.ref = 0 ∧ x.locked = false) :
    wp (fun _ => True) (do
        let jp ← iget i
        ilock jp
        inode jp)
      (fun y _ => y.din = (s.store.mem.itable ip).din) (fun _ _ => False)
      { s.store with mem := s.store.mem.setEntry ip x } := by
  have hcoh := (h.inv.coh ip i hh).eq
  have htype := h.inv.type ip i hh
  obtain ⟨P, -, hd⟩ := h.inv.disk
  have hentry : ∀ jp < nInode, ((s.store.mem.setEntry ip x).itable jp).ref = 0 →
      ((s.store.mem.setEntry ip x).itable jp).locked = false := by
    intro jp hjp hz
    by_cases heq : jp = ip
    · rw [heq, setEntry_same]
      exact hx.2
    · rw [setEntry_other heq] at hz ⊢
      exact h.owned.unlocked_of_free hjp hz
  have hnone : (List.range nInode).find? (fun jp =>
      0 < ((s.store.mem.setEntry ip x).itable jp).ref ∧
        ((s.store.mem.setEntry ip x).itable jp).inum = i) = none := by
    refine List.find?_eq_none.mpr fun jp hjp => ?_
    rw [decide_eq_true_eq]
    rintro ⟨hpos, hinum⟩
    by_cases heq : jp = ip
    · rw [heq, setEntry_same, hx.1] at hpos
      exact absurd hpos (Int.lt_irrefl 0)
    · rw [setEntry_other heq] at hpos hinum
      exact heq (h.inv.uniq jp ip (List.mem_range.mp hjp) hh.lt hpos hh.ref
        (hinum.trans hh.inum.symm))
  simp only [iget, wp_bind, wp_mem, hnone]
  cases hf : (List.range nInode).find? fun jp =>
      decide (((s.store.mem.setEntry ip x).itable jp).ref = 0) with
  | none =>
      have hc := List.find?_eq_none.mp hf ip (List.mem_range.mpr hh.lt)
      simp [hx.1] at hc
  | some jp =>
      have hz := List.find?_some hf
      have hjp := List.mem_range.mp (List.mem_of_find?_eq_some hf)
      simp only [decide_eq_true_eq] at hz
      have hfree : iblock s.store.mem.sb i ∉ s.store.held := by
        rw [h.inv.held]
        exact List.not_mem_nil
      simp only [wp_bind, wp_setInode, wp_pure, ilock, acquiresleep, wp_superblock, wp_inode,
        setEntry_same]
      rw [if_neg (by decide)]
      simp only [wp_bind, wp_inode, setEntry_same, hentry jp hjp hz]
      rw [if_neg (by decide), wp_setInode, if_neg (by decide)]
      simp only [wp_bind]
      refine wp_loadDin h.inv.tidy hfree (hd.core.sbOk.iblock_not_log i) ?_
      rw [wp_setInode]
      have hread : Dinode.read (s.store.blocks (iblock s.store.mem.sb i)) (ioff i) =
          (s.store.mem.itable ip).din := hcoh
      refine wp_ite (fun hz => ?_) fun _ => ?_
      · exact absurd ((congrArg Dinode.type hread).symm.trans hz) htype
      · rw [wp_pure, setEntry_same]
        dsimp only
        rw [mapDin_same]
        exact hread

/-- The inode table is a coherent cache: in every state of every run no inode has two entries
in use, and a valid entry that is not locked is equal to the inode on disk, so that giving it
up and reading it again does not change it. -/
theorem inode_cache_coherent {s t : Shared} {evs : List Event} (h : s.Boot) (hs : Fresh s.store)
    (hr : Run Shared.step (fun _ _ => True) s evs t) :
    t.store.mem.Unique ∧
    ∀ ip < nInode, 0 < (t.store.mem.itable ip).ref → (t.store.mem.itable ip).valid = true →
      (t.store.mem.itable ip).locked = false →
      (t.store.mem.itable ip).din =
        diskInode t.store.mem.sb t.store.blocks (t.store.mem.itable ip).inum ∧
      ∀ x : Inode, x.ref = 0 ∧ x.locked = false →
        wp (fun _ => True) (do
            let jp ← iget (t.store.mem.itable ip).inum
            ilock jp
            inode jp)
          (fun y _ => y.din = (t.store.mem.itable ip).din) (fun _ _ => False)
          { t.store with mem := t.store.mem.setEntry ip x } := by
  have hc : Cached t := hr.invariant (h.cached hs) fun _ _ _ hc _ hst => hc.step hst
  refine ⟨hc.inv.uniq, fun ip hip hpos hv _ => ?_⟩
  have hh : t.store.mem.Holds ip (t.store.mem.itable ip).inum := ⟨hip, hpos, hv, rfl⟩
  exact ⟨(hc.inv.coh ip _ hh).eq.symm, hc.reload hh⟩

/-! ## The small file system -/

theorem small_inode {i : Nat} (hi : i < 2) :
    small.inodeOf i = diskInode small.mem.sb small.blocks i :=
  inodeOf_of_not_holds hi fun _ h => absurd h.ref (Int.lt_irrefl 0)

theorem small_type {i : Nat} (h : (small.inodeOf i).type ≠ 0) : i = 1 := by
  by_cases hi : i < small.mem.sb.ninodes
  · have hi : i < 2 := hi
    have hzero : (small.inodeOf 0).type = 0 := by decide +kernel
    have : i ≠ 0 := by
      intro heq
      rw [heq] at h
      exact h hzero
    omega
  · unfold Store.inodeOf at h
    rw [if_neg hi] at h
    exact absurd rfl h

theorem small_place (x : Nat × Nat) :
    placeOf small.mem.sb small.blocks small.inodeOf x = none := by
  refine Option.eq_none_iff_forall_ne_some.mpr fun b hb => ?_
  obtain ⟨-, hk, ht, hne, heq⟩ := placeOf_eq_some.mp hb
  have hslot : ∀ k < nSlots,
      slotAddr small.blocks (diskInode small.mem.sb small.blocks 1) k = 0 := by decide +kernel
  rw [small_type ht, small_inode (by decide), hslot _ hk] at heq
  exact hne heq.symm

theorem small_fresh : Fresh small := by
  have hsize : (small.inodeOf 1).size = 0 := by decide +kernel
  have hty : (small.inodeOf 1).type = tFile := by decide +kernel
  refine ⟨⟨⟨⟨by decide, by decide, by decide, by decide, by decide, by decide⟩, by decide,
    ⟨fun x y b hx => ?_, fun x b hx => ?_, fun _ hc => hc.elim, fun b hb => ?_⟩, fun i hi => ?_⟩,
    fun i hi ht => ?_⟩, fun i ht => ?_, fun _ _ => rfl, fun _ => rfl, fun _ _ => rfl, rfl, rfl⟩
  · rw [small_place] at hx
    cases hx
  · rw [small_place] at hx
    cases hx
  · obtain ⟨hge, hlt, hbit⟩ := hb
    have hge : 5 ≤ b := hge
    have hlt : b < 6 := hlt
    obtain rfl : b = 5 := by omega
    exact absurd hbit (by decide)
  · rw [small_inode hi]
    exact Dinode.read_fits _ _
  · obtain rfl := small_type ht
    refine ⟨by rw [hsize]; exact Nat.zero_le _, fun bn hbn => ?_, fun hd => ?_⟩
    · rw [hsize] at hbn
      exact absurd hbn (Nat.not_lt_zero _)
    · exact absurd (hty.symm.trans hd) (by decide)
  · have hne : (small.inodeOf i).type ≠ 0 := by
      rw [← small.node_type, ht]
      decide
    obtain rfl := small_type hne
    rw [small.node_type, hty] at ht
    exact absurd ht (by decide)

/-- A process gives the file a link and unlocks it. -/
theorem inode_cache_coherent_small :
    ∃ t, Run Shared.step (fun _ _ => True) (.start small)
        [.beginOp 0, .iget 0 1, .ilock 0 0, .work 0 0 (.fields 0 0 1), .iunlock 0 0, .endOp 0] t ∧
      (t.store.mem.itable 0).din.nlink = 1 ∧
      (t.store.mem.itable 0).din = diskInode t.store.mem.sb t.store.blocks 1 := by
  have hrun : (runTest Shared.step (fun _ _ => true) (.start small)
      [.beginOp 0, .iget 0 1, .ilock 0 0, .work 0 0 (.fields 0 0 1), .iunlock 0 0, .endOp 0]).map
        (fun t => ((t.store.mem.itable 0).din.nlink, (t.store.mem.itable 0).inum,
          (t.store.mem.itable 0).ref, (t.store.mem.itable 0).valid,
          (t.store.mem.itable 0).locked)) = some (1, 1, 1, true, false) := by
    decide +kernel
  obtain ⟨t, ht, hend⟩ := Option.map_eq_some_iff.mp hrun
  simp only [Prod.mk.injEq] at hend
  obtain ⟨hlink, hinum, href, hvalid, hlocked⟩ := hend
  have hr : Run Shared.step (fun _ _ => True) _ _ t :=
    Run.of_runTest (fun _ _ _ => trivial) ht
  obtain ⟨-, hcoh⟩ := inode_cache_coherent small_boot small_fresh hr
  refine ⟨t, hr, hlink, ?_⟩
  rw [(hcoh 0 (by decide) (by rw [href]; decide) hvalid hlocked).1, hinum]

end Xv6.Fs
