import Xv6.Kernel.Fs.Paths

/-! # Following a path to its end

Where no inode is locked and every entry of a directory names an allocated inode, a path can
be followed to its end: `namex` returns what the walk through the nodes gives, unless the
table of inodes is full. What it returns is known from `namex_in`; that it returns is shown
here, with the locks as `namex_at` knows them.
-/

namespace Xv6.Fs

open Lib

/-! ## Walks -/

/-- From inode `i` the components lead to inode `k`, with one lookup for each of them. -/
inductive Leads (N : Nat → Node) : Nat → List (List UInt8) → Nat → Prop where
  | here (i : Nat) : Leads N i [] i
  | step {i j k slot : Nat} {name : List UInt8} {rest : List (List UInt8)} (dir : (N i).type = tDir)
      (found : (N i).lookup name = some (j, slot)) (next : Leads N j rest k) :
      Leads N i (name :: rest) k

section

variable {N : Nat → Node} {elems : List (List UInt8)} {name : List UInt8} {i k : Nat}

theorem leads_nil : Leads N i [] k ↔ k = i := by
  constructor
  · intro h
    cases h
    rfl
  · intro h
    rw [h]
    exact .here i

theorem leads_cons : Leads N i (name :: elems) k ↔
    (N i).type = tDir ∧ ∃ j slot, (N i).lookup name = some (j, slot) ∧ Leads N j elems k := by
  constructor
  · intro h
    cases h with
    | step dir found next => exact ⟨dir, _, _, found, next⟩
  · intro h
    obtain ⟨dir, j, slot, found, next⟩ := h
    exact .step dir found next

theorem walk_eq_some_iff {r : Nat × List UInt8} :
    walk N false i elems = some r ↔ r.2 = [] ∧ Leads N i elems r.1 := by
  induction elems generalizing i with
  | nil =>
    rw [leads_nil, walk, if_neg (by decide), Option.some.injEq]
    constructor
    · intro h
      rw [← h]
      exact ⟨rfl, rfl⟩
    · intro h
      exact Prod.ext h.2.symm h.1.symm
  | cons name rest ih =>
    rw [leads_cons, walk, ite_not, if_neg (by simp : ¬ (false = true ∧ rest = []))]
    by_cases hdir : (N i).type = tDir
    · rw [if_pos hdir]
      cases (N i).lookup name with
      | none => simp
      | some e =>
        obtain ⟨j, slot⟩ := e
        simp [ih, hdir]
    · rw [if_neg hdir]
      simp [hdir]

/-- The walk to the parent stops one component early, at a directory. -/
theorem walk_parent_eq_some_iff {r : Nat × List UInt8} : walk N true i elems = some r ↔
    ∃ init, elems = init ++ [r.2] ∧ Leads N i init r.1 ∧ (N r.1).type = tDir := by
  induction elems generalizing i with
  | nil => simp [walk]
  | cons name rest ih =>
    have hsplit : (∃ init, name :: rest = init ++ [r.2] ∧ Leads N i init r.1 ∧
      (N r.1).type = tDir) ↔
        (rest = [] ∧ r = (i, name) ∧ (N i).type = tDir) ∨ (N i).type = tDir ∧ ∃ j slot,
          (N i).lookup name = some (j, slot) ∧ walk N true j rest = some r := by
      constructor
      · intro h
        obtain ⟨init, heq, hlead, hdir⟩ := h
        cases init with
        | nil =>
          obtain ⟨rfl, rfl⟩ := List.cons.inj heq
          have hk := leads_nil.mp hlead
          rw [hk] at hdir
          exact .inl ⟨rfl, Prod.ext hk rfl, hdir⟩
        | cons first init =>
          obtain ⟨rfl, rfl⟩ := List.cons.inj heq
          obtain ⟨hd, j, slot, hfound, hnext⟩ := leads_cons.mp hlead
          exact .inr ⟨hd, j, slot, hfound, ih.mpr ⟨init, rfl, hnext, hdir⟩⟩
      · intro h
        rcases h with ⟨rfl, rfl, hdir⟩ | ⟨hd, j, slot, hfound, hwalk⟩
        · exact ⟨[], rfl, .here i, hdir⟩
        · obtain ⟨init, rfl, hnext, hdir⟩ := ih.mp hwalk
          exact ⟨name :: init, rfl, .step hd hfound hnext, hdir⟩
    rw [hsplit, walk, ite_not]
    by_cases hdir : (N i).type = tDir
    · rw [if_pos hdir]
      by_cases hlast : rest = []
      · rw [if_pos ⟨rfl, hlast⟩, hlast]
        have hnil : ∀ j, walk N true j [] = none := fun _ => rfl
        simp [hdir, hnil, eq_comm]
      · rw [if_neg fun h => hlast h.2]
        cases (N i).lookup name with
        | none => simp [hlast]
        | some e =>
          obtain ⟨j, slot⟩ := e
          simp [hlast, hdir]
    · rw [if_neg hdir]
      simp [hdir]

end

/-! ## No waiting and no panic -/

/-- The stops of code that follows a path, with the state it stops in: every entry of the inode
table is in use, or there is a hole in a directory and no free block on the disk. -/
def Cramped (st : Bool) (r : Stop) (t : Store) : Prop :=
  r = .panic "iget: no inodes" ∧ t.mem.NoEntry ∨
    r = .panic "dirlookup read" ∧ st = false ∧ t.Full

/-- The program returns, or stops for want of room. -/
abbrev Gets {α : Type} (st : Bool) (p : FsProg α) (Q : α → Store → Prop) (s : Store) : Prop :=
  wp (fun _ => True) p Q (Cramped st) s

theorem Ends.gets {α : Type} {st : Bool} {p : FsProg α} {Q R : α → Store → Prop} {s : Store}
    (h : Ends p Q s) (h' : Gets st p R s) : Gets st p (fun a t => Q a t ∧ R a t) s :=
  wp_mono (Prog.wp_and h h') (fun _ _ ht => ht) fun _ _ he => he.2

section

variable {m : Mode} {w : World} {v : View} {s t : Store} {ip i : Nat}

theorem At.unlocked (h : At v s) {jp : Nat} (hfree : v.locks jp = false) :
    (s.mem.itable jp).locked = false :=
  (h.locks jp).trans hfree

theorem In.take_entry {known : Bool} (h : In m (w.take known ip i) s) (hs : m.sound) :
    ip < nInode ∧ 0 < (s.mem.itable ip).ref ∧ (s.mem.itable ip).inum = i ∧
      (s.inodeOf i).type ≠ 0 := by
  cases known with
  | true =>
    have hmem : (ip, i) ∈ (w.take true ip i).refs := List.mem_cons_self
    have halive := h.alive hmem
    rw [s.node_type] at halive
    exact ⟨h.lt hmem, h.ref_pos (List.mem_append_left _ hmem), h.num_refs hmem, halive⟩
  | false =>
    have hmem : (ip, i) ∈ (w.take false ip i).fresh := List.mem_cons_self
    have hU : ip ∈ (w.take false ip i).pending := List.mem_map_of_mem hmem
    have hnum := h.num _ (List.mem_append_right _ hmem)
    have hlt := h.inv.lt ip (.inr hU)
    have halive := h.inv.alive ip hlt (.inr (.inr ⟨hs, hU⟩))
    rw [hnum] at halive
    exact ⟨hlt, h.inv.ref_pos (.inr hU), hnum, halive⟩

theorem ilock_gets {known : Bool} (hs : m.sound) (h : In m (w.take known ip i) s)
    (hat : At (v.take ip) s) (hfree : v.locks ip = false) :
    Gets m.strict (ilock ip) (fun _ t => In m (w.lock ip i) t ∧ t.node = s.node ∧
      At ((v.take ip).lock ip) t) s := by
  obtain ⟨hlt, hpos, hnum, htype⟩ := h.take_entry hs
  have hsafe : Gets m.strict (ilock ip) (fun _ _ => True) s := by
    refine ilock_runs h.inv hlt hpos (fun hlocked => ?_) (fun hzero => ?_) fun _ _ _ _ _ _ _ =>
      trivial
    · rw [hat.unlocked hfree] at hlocked
      cases hlocked
    · rw [hnum] at hzero
      exact absurd hzero htype
  refine wp_mono (Ends.gets (ilock_take benign_all h) (Ends.gets (ilock_at hat) hsafe))
    (fun _ t ht => ?_) fun _ _ he => he
  exact ⟨ht.1.1, ht.1.2, ht.2.1.2⟩

theorem iput_gets {known : Bool} (hx : m.exact) (h : In m (w.take known ip i) s)
    (ho : 1 ≤ w.ops) (hw : w.Closed) (hat : At (v.take ip) s) (hfree : v.locks ip = false) :
    Gets m.strict (iput ip) (fun _ t => In m w t ∧ t.node = s.node ∧ At v t) s := by
  have hwait : (s.mem.itable ip).locked = true → Cramped m.strict .deadlock s := fun hlocked => by
    rw [hat.unlocked hfree] at hlocked
    cases hlocked
  have hops : 1 ≤ (w.take known ip i).ops := by
    cases known <;> exact ho
  have hsafe : Gets m.strict (iput ip) (fun _ _ => True) s := by
    cases known with
    | true => exact iput_gen hwait (h.trans' hops) h.inv (oneLess_refs rfl) fun _ _ _ _ => trivial
    | false => exact iput_gen hwait (h.trans' hops) h.inv (oneLess_fresh rfl) fun _ _ _ _ => trivial
  refine wp_mono (Ends.gets (iput_take benign_all h ho hw) (Ends.gets (iput_at hat) hsafe))
    (fun _ t ht => ?_) fun _ _ he => he
  exact ⟨ht.1.1, ht.1.2 hx, ht.2.1⟩

theorem iunlock_gets (h : In m (w.lock ip i) s) (hat : At ((v.take ip).lock ip) s)
    (hfree : v.locks ip = false) :
    Gets m.strict (iunlock ip) (fun _ t => In m (w.lock ip i) t ∧ t.node = s.node ∧
      At (v.take ip) t) s := by
  have hmem : (ip, i) ∈ (w.lock ip i).refs := List.mem_cons_self
  have hsafe : Gets m.strict (iunlock ip) (fun _ _ => True) s := by
    refine iunlock_runs h.inv (h.lt hmem) (h.ref_pos (List.mem_append_left _ hmem))
      (fun hopen => ?_)
      fun _ _ _ _ _ _ => trivial
    have hlocked := hat.locks ip
    simp only [View.lock, upd_same] at hlocked
    have hopen' : (s.use ip).2 = false := hopen
    rw [hopen'] at hlocked
    cases hlocked
  refine wp_mono (Ends.gets (iunlock_in benign_all h hmem) (Ends.gets (iunlock_at hat hfree) hsafe))
    (fun _ t ht => ?_) fun _ _ he => he
  exact ⟨ht.1.1, ht.1.2, ht.2.1⟩

theorem iunlockput_gets (hx : m.exact) (h : In m (w.lock ip i) s) (ho : 1 ≤ w.ops)
    (hw : w.Closed) (hat : At ((v.take ip).lock ip) s) (hfree : v.locks ip = false) :
    Gets m.strict (iunlockput ip) (fun _ t => In m w t ∧ t.node = s.node ∧ At v t) s := by
  refine wp_seq (iunlock_gets h hat hfree) fun _ t ht => ?_
  obtain ⟨hin, hnode, hat'⟩ := ht
  have hkept : In m (w.take true ip i) t :=
    hin.forget (V := w.valid) (A := w.anchors) (fun _ hjp => List.mem_cons_of_mem _ hjp)
      (fun _ hjp => hjp) fun jp hjp => List.mem_cons_of_mem _ (hw.anchors jp hjp)
  refine wp_mono (iput_gets hx hkept ho hw hat' hfree) (fun _ u hu => ?_) fun _ _ he => he
  exact ⟨hu.1, hu.2.1.trans hnode, hu.2.2⟩

theorem dirlookup_gets {name : List UInt8} (h : In m (w.lock ip i) s)
    (ho : 1 ≤ w.ops) (hat : At v s) (hdir : (s.node i).type = tDir) (hsolid : Solid s.node i) :
    Gets m.strict (dirlookup ip name) (fun r t => Found m (w.lock ip i) s i name r t ∧
      At (v.took (r.map Prod.fst)) t) s := by
  have hr : (ip, i) ∈ (w.lock ip i).refs := List.mem_cons_self
  have hv : ip ∈ (w.lock ip i).valid := List.mem_cons_self
  have hd := h.din hr hv
  have hsafe : Gets m.strict (dirlookup ip name) (fun _ _ => True) s := by
    have htype : (s.mem.itable ip).din.type = (s.node i).type := by rw [hd]; rfl
    have hsize : (s.mem.itable ip).din.size = (s.node i).size := by rw [hd]; rfl
    unfold dirlookup Gets
    rw [wp_bind, wp_inode, htype, hsize, if_neg (not_not.mpr hdir)]
    refine wp_mono (dirlookupFrom_in (j := 0) (fun _ hfull => .inl ⟨rfl, hfull⟩)
      (fun hst _ hfull => .inr ⟨rfl, hst, hfull⟩)
      (.inr (h.trans' ho)) h hr hv hdir (fun _ => hsolid) _ (by omega)) (fun _ _ _ => trivial)
      fun _ _ he => he
  have hfound : Ends (dirlookup ip name) _ s :=
    dirlookup_in benign_all (.inr (h.trans' ho)) h hr hv fun _ _ => hsolid
  refine wp_mono (Ends.gets hfound (Ends.gets (dirlookup_at ip name hat) hsafe)) (fun _ t ht => ?_)
    fun _ _ he => he
  exact ⟨ht.1.2, ht.2.1⟩

/-- The loop of `namex` comes to its end. -/
theorem namexFrom_gets (known : Bool) {parent : Bool} (hs : m.sound) (hx : m.exact)
    (hroot : Rooted s.node)
    (h : In m (w.take known ip i) s) (ho : 1 ≤ w.ops) (hw : w.Closed) (hat : At (v.take ip) s)
    (hfree : ∀ jp, v.locks jp = false) (elems : List (List UInt8)) :
    Gets m.strict (namexFrom parent ip elems) (fun _ _ => True) s := by
  induction elems generalizing ip i known s with
  | nil =>
    unfold namexFrom
    refine wp_ite (fun _ => ?_) fun _ => (wp_pure _).mpr trivial
    exact wp_seq (iput_gets hx h ho hw hat (hfree ip)) fun _ _ _ => (wp_pure _).mpr trivial
  | cons name rest ih =>
    unfold namexFrom
    refine wp_seq (ilock_gets hs h hat (hfree ip)) fun _ t ht => ?_
    obtain ⟨hin, hnode, hat'⟩ := ht
    have hr : (ip, i) ∈ (w.lock ip i).refs := List.mem_cons_self
    have hv : ip ∈ (w.lock ip i).valid := List.mem_cons_self
    have htype : (t.mem.itable ip).din.type = (t.node i).type := by
      rw [hin.din hr hv]
      rfl
    refine wp_bind.mpr ((wp_inode ip).mpr ?_)
    rw [htype]
    refine wp_ite (fun _ => ?_) fun hdir => wp_ite (fun _ => ?_) fun _ => ?_
    · exact wp_seq (iunlockput_gets hx hin ho hw hat' (hfree ip)) fun _ _ _ =>
        (wp_pure _).mpr trivial
    · exact wp_seq (iunlock_gets hin hat' (hfree ip)) fun _ _ _ => (wp_pure _).mpr trivial
    · have hdir := not_not.mp hdir
      have hroot' : Rooted t.node := by
        rw [hnode]
        exact hroot
      refine wp_seq (dirlookup_gets hin ho hat' hdir (hroot'.2 i hdir)) fun r u hu => ?_
      obtain ⟨⟨hun, hres⟩, hau⟩ := hu
      cases r with
      | none =>
        exact wp_seq (iunlockput_gets hx hres.1 ho hw hau (hfree ip)) fun _ _ _ =>
          (wp_pure _).mpr trivial
      | some e =>
        obtain ⟨j, k, -, -, hin'⟩ := hres
        have hfresh : In m ((w.take false e.1 j).lock ip i) u := hin'
        have hswap : At (((v.take e.1).take ip).lock ip) u :=
          hau.perm (List.Perm.swap ip e.1 v.refs)
        refine wp_seq (iunlockput_gets hx hfresh ho ⟨hw.valid, hw.anchors⟩ hswap (hfree ip))
          fun _ z hz => ?_
        refine ih false ?_ hz.1 hz.2.2
        rw [hz.2.1, hun]
        exact hroot'

/-- `namex` returns what the walk through the nodes gives. -/
theorem namex_gets {cwd c : Nat} (path : List UInt8) (parent : Bool) (hs : m.sound) (hx : m.exact)
    (hroot : Rooted s.node) (h : In m w s) (ho : 1 ≤ w.ops) (hone : rootIno < w.sb.ninodes)
    (hc : (cwd, c) ∈ w.refs) (hat : At v s) (hfree : ∀ jp, v.locks jp = false) :
    Gets m.strict (namex cwd path parent)
      (Reached m w s parent (resolve s.node c path parent)) s := by
  have hsafe : Gets m.strict (namex cwd path parent) (fun _ _ => True) s := by
    unfold namex
    refine wp_ite (fun _ => ?_) fun _ => ?_
    · have hget : Gets m.strict (iget rootIno) _ s :=
        iget_in (fun hfull => .inl ⟨rfl, hfull⟩) h hone fun _ => hroot.1
      refine wp_seq (Ends.gets (iget_at hat) hget) fun ip t ht => ?_
      refine namexFrom_gets (i := rootIno) (w := w) false hs hx ?_ ht.2.1 ho h.closed ht.1 hfree _
      rw [ht.2.2]
      exact hroot
    · have hdup : Gets m.strict (idup cwd) _ s := idup_in h hc
      refine wp_seq (Ends.gets (idup_at hat) hdup) fun ip t ht => ?_
      obtain ⟨hat', rfl, hin, hnode⟩ := ht
      refine namexFrom_gets (i := c) (w := w) true hs hx ?_ hin ho h.closed hat' hfree _
      rw [hnode]
      exact hroot
  have hres : Ends (namex cwd path parent) _ s :=
    namex_in benign_all h ho (fun _ => ⟨hx, hroot⟩) hone hc
  exact wp_mono (Ends.gets hres hsafe) (fun _ _ ht => ht.1) fun _ _ he => he

end

end Xv6.Fs
