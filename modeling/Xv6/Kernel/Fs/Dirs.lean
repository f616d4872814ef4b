import Xv6.Kernel.Fs.World
import Xv6.Kernel.Fs.Tree

/-! # Directories and paths

The loops of `dirlookup`, `dirlink` and `isdirempty` against the entries of a node, and
`namex` against the walk through the nodes.
-/

namespace Xv6.Fs

open Lib

/-! ## Entries -/

section

variable {n : Node} {name : List UInt8} {j : Nat}

theorem direntInum_slice (n : Node) (j : Nat) :
    direntInum (n.slice (direntSize * j) direntSize) = entryInum n j := rfl

theorem direntName_slice (n : Node) (j : Nat) :
    direntName (n.slice (direntSize * j) direntSize) = entryName n j := by
  have hsplit : direntSize = 2 + dirSiz := rfl
  have hlen : (n.slice (direntSize * j) 2).length = 2 := n.slice_length _ _
  unfold direntName entryName
  rw [show n.slice (direntSize * j) direntSize = n.slice (direntSize * j) (2 + dirSiz) from rfl,
    Node.slice_add, List.drop_append_of_le_length (by rw [hlen]), List.drop_of_length_le
    (by rw [hlen]), List.nil_append]

theorem entryMatches_iff : entryMatches n name j = true ↔
    entryInum n j ≠ 0 ∧ namecmpEq name (entryName n j) = true := by
  unfold entryMatches
  rw [Bool.and_eq_true, decide_eq_true_eq]

def Node.from (n : Node) (j : Nat) : List Nat := List.range' j (n.size / direntSize - j)

theorem Node.from_cons (hj : j < n.size / direntSize) : n.from j = j :: n.from (j + 1) := by
  unfold Node.from
  have hsub : n.size / direntSize - j = n.size / direntSize - (j + 1) + 1 := by omega
  rw [hsub, List.range'_succ]

theorem Node.from_nil (hj : n.size / direntSize ≤ j) : n.from j = [] := by
  unfold Node.from
  rw [Nat.sub_eq_zero_of_le hj]
  rfl

theorem Node.lookup_from (n : Node) (name : List UInt8) :
    n.lookup name = ((n.from 0).find? (entryMatches n name)).map fun j => (entryInum n j, j) := by
  unfold Node.lookup Node.from
  rw [Nat.sub_zero, List.range_eq_range']

/-- The last part of an entry of a whole directory is in the directory. -/
theorem entry_end (hwhole : n.size % direntSize = 0) :
    direntSize * j < n.size ↔ direntSize * j + direntSize ≤ n.size := by
  rw [direntSize_eq] at hwhole ⊢
  omega

theorem entry_lt (hwhole : n.size % direntSize = 0) :
    direntSize * j < n.size ↔ j < n.size / direntSize := by
  rw [direntSize_eq] at hwhole ⊢
  omega

end

section

variable {I : Store → Prop} {E : Stop → Store → Prop} {m : Mode} {w : World} {s t : Store}
  {ip i dp d j : Nat} {name : List UInt8}

theorem In.din (h : In m w s) (hr : (ip, i) ∈ w.refs) (hv : ip ∈ w.valid) :
    s.node i = nodeOf s.blocks (s.mem.itable ip).din := by
  obtain ⟨hn, -, hd⟩ := h.inv.node_holds (h.holds hr hv)
  rw [hn, hd]

theorem In.nodeOk (h : In m w s) (hr : (ip, i) ∈ w.refs) (hv : ip ∈ w.valid) :
    NodeOk w.sb (s.node i) := by
  rw [← h.sb]
  exact h.inv.nodeOk (h.holds hr hv)

theorem In.size_le (h : In m w s) (hr : (ip, i) ∈ w.refs) (hv : ip ∈ w.valid) :
    (s.node i).size ≤ maxFile * bsize := by
  obtain ⟨P, -, hd⟩ := h.inv.disk
  have hs := h.inv.active hd (h.holds hr hv)
  rw [(h.inv.node_holds (h.holds hr hv)).1]
  exact (hd.ok i hs.lt hs.type).size

/-- What may be logged before a step of a world may be logged after it. -/
theorem In.logs (h : In m w s) (ht : In m w t) (ho : m.strict = true ∨ s.Trans E) :
    m.strict = true ∨ t.Trans E := by
  rcases ho with hst | htr
  · exact .inl hst
  · right
    unfold Store.Trans at htr ⊢
    rwa [ht.ops, ← h.ops]

/-- An entry of a directory is read: all of it, or the kernel panics. -/
theorem readEntry_in {α : Type} {Q : α → Store → Prop} (msg : String)
    (k : List UInt8 → FsProg α) (ho : m.strict = true ∨ s.Trans E) (h : In m w s)
    (hr : (dp, d) ∈ w.refs) (hv : dp ∈ w.valid)
    (hend : direntSize * j + direntSize ≤ (s.node d).size)
    (hpanic : m.strict = false → ∀ t, t.Full → E (.panic msg) t)
    (hk : ∀ t, In m w t → t.node = s.node → (m.strict = true → t = s) →
      wp I (k ((s.node d).slice (direntSize * j) direntSize)) Q E t) :
    wp I (readi dp .kernel (direntSize * j) direntSize >>= fun r =>
      if r.1 ≠ direntSize then panic msg else k r.2) Q E s := by
  have hsize := h.size_le hr hv
  have hmax : maxFile * bsize < 2 ^ 32 := by decide
  have hlen : readLen (s.node d).size (direntSize * j) direntSize = direntSize := by
    unfold readLen
    rw [if_neg (by omega), Nat.min_eq_left (by omega)]
  refine wp_seq (readi_in ho h hr hv (by decide)) fun r t ht => ?_
  obtain ⟨hin, hnode, hsame, hbytes⟩ := ht
  rw [hlen] at hbytes
  rcases hbytes with rfl | ⟨hshort, hno⟩
  · rw [if_neg (by simp)]
    exact hk t hin hnode hsame
  · rw [if_pos (by simpa using hshort), wp_panic]
    obtain ⟨hst, hfull⟩ := hno fun _ _ _ => rfl
    exact hpanic hst t hfull

/-- A panic of a loop over a directory is possible only with holes. -/
theorem Benign.readPanic (hE : Benign m.strict m.sound E) {msg : String}
    (hmsg : msg ∈ ["dirlookup read", "dirlink read", "isdirempty: readi"]) :
    m.strict = false → ∀ t, t.Full → E (.panic msg) t := by
  intro hst t _
  have hall : ∀ msg ∈ ["dirlookup read", "dirlink read", "isdirempty: readi"],
      msg ∉ fatal false ∧ msg ≠ "ilock: no type" := by
    decide
  obtain ⟨hfatal, hguard⟩ := hall msg hmsg
  exact hE.panic msg (hst ▸ hfatal) hguard t

/-- The entries in use of the directory name allocated inodes. -/
def Solid (N : Nat → Node) (d : Nat) : Prop :=
  ∀ j, direntSize * j + direntSize ≤ (N d).size → entryInum (N d) j ≠ 0 →
    (N (entryInum (N d) j)).type ≠ 0

/-- What `dirlookup` returns, from entry `j` on. -/
def Looked (m : Mode) (w : World) (s : Store) (d : Nat) (name : List UInt8) (j : Nat)
    (r : Option (Nat × Nat)) (t : Store) : Prop :=
  t.node = s.node ∧ match r with
  | none => In m w t ∧ (m.strict = true → t = s) ∧
      ((s.node d).from j).find? (entryMatches (s.node d) name) = none
  | some (jp, off) => ∃ k, ((s.node d).from j).find? (entryMatches (s.node d) name) = some k ∧
      off = direntSize * k ∧ In m { w with fresh := (jp, entryInum (s.node d) k) :: w.fresh } t

theorem dirlookupFrom_in (hfull : ∀ t, t.mem.NoEntry → E (.panic "iget: no inodes") t)
    (hread : m.strict = false → ∀ t, t.Full → E (.panic "dirlookup read") t)
    (ho : m.strict = true ∨ s.Trans E) (h : In m w s) (hr : (dp, d) ∈ w.refs) (hv : dp ∈ w.valid)
    (htype : (s.node d).type = tDir)
    (hsolid : m.sound → Solid s.node d) (fuel : Nat)
    (hfuel : (s.node d).size / direntSize < j + fuel) :
    wp I (dirlookupFrom dp name (s.node d).size fuel (direntSize * j)) (Looked m w s d name j)
      E s := by
  induction fuel generalizing j s with
  | zero =>
    refine (wp_pure _).mpr ⟨rfl, h, fun _ => rfl, ?_⟩
    rw [Node.from_nil (by omega)]
    rfl
  | succ fuel ih =>
    have hwhole := (h.nodeOk hr hv).whole htype
    unfold dirlookupFrom
    refine wp_ite (fun hlt => ?_) fun hge => ?_
    · have hend := (entry_end hwhole).mp hlt
      rw [entry_lt hwhole] at hlt
      refine readEntry_in "dirlookup read" (fun de =>
        if direntInum de ≠ 0 ∧ namecmpEq name (direntName de) then do
          let ip ← iget (direntInum de)
          return some (ip, direntSize * j)
        else dirlookupFrom dp name (s.node d).size fuel (direntSize * j + direntSize))
        ho h hr hv hend hread fun t ht hnode hsame => ?_
      rw [direntInum_slice, direntName_slice]
      refine wp_ite (fun hmatch => ?_) fun hmiss => ?_
      · have hne := hmatch.1
        rw [← entryMatches_iff] at hmatch
        refine wp_seq (iget_in (hfull t) ht ?_ fun hs => ?_) fun jp u hu => (wp_pure _).mpr ?_
        · exact (h.nodeOk hr hv).names htype j hend
        · rw [hnode]
          exact hsolid hs j hend hne
        · refine ⟨hu.2.trans hnode, j, ?_, rfl, hu.1⟩
          rw [Node.from_cons hlt, List.find?_cons_of_pos hmatch]
      · rw [← entryMatches_iff] at hmiss
        have hnext : direntSize * j + direntSize = direntSize * (j + 1) := by ring
        rw [hnext, ← hnode]
        refine wp_mono (ih (h.logs ht ho) ht (hnode ▸ htype) (hnode ▸ hsolid)
          (by rw [hnode]; omega))
          (fun r u hu => ?_) fun _ _ he => he
        obtain ⟨hun, hres⟩ := hu
        rw [hnode] at hun hres
        refine ⟨hun, ?_⟩
        rw [Node.from_cons hlt, List.find?_cons_of_neg hmiss]
        cases r with
        | none => exact ⟨hres.1, fun hst => (hres.2.1 hst).trans (hsame hst), hres.2.2⟩
        | some r => exact hres
    · refine (wp_pure _).mpr ⟨rfl, h, fun _ => rfl, ?_⟩
      rw [entry_lt hwhole] at hge
      rw [Node.from_nil (Nat.le_of_not_lt hge)]
      rfl

def Found (m : Mode) (w : World) (s : Store) (d : Nat) (name : List UInt8)
    (r : Option (Nat × Nat)) (t : Store) : Prop :=
  t.node = s.node ∧ match r with
  | none => In m w t ∧ (m.strict = true → t = s) ∧ (s.node d).lookup name = none
  | some (jp, off) => ∃ i k, (s.node d).lookup name = some (i, k) ∧ off = direntSize * k ∧
      In m { w with fresh := (jp, i) :: w.fresh } t

theorem Looked.found {r : Option (Nat × Nat)} (h : Looked m w s d name 0 r t) :
    Found m w s d name r t := by
  obtain ⟨hnode, hres⟩ := h
  refine ⟨hnode, ?_⟩
  rw [Node.lookup_from]
  cases r with
  | none =>
    obtain ⟨hin, hsame, hnone⟩ := hres
    exact ⟨hin, hsame, by rw [hnone]; rfl⟩
  | some r =>
    obtain ⟨k, hk, hoff, hin⟩ := hres
    exact ⟨entryInum (s.node d) k, k, by rw [hk]; rfl, hoff, hin⟩

theorem dirlookup_in (hE : Benign m.strict m.sound E) (ho : m.strict = true ∨ s.Trans E)
    (h : In m w s) (hr : (dp, d) ∈ w.refs) (hv : dp ∈ w.valid)
    (hsolid : m.sound → (s.node d).type = tDir → Solid s.node d) :
    wp I (dirlookup dp name) (fun r t => (s.node d).type = tDir ∧ Found m w s d name r t) E s := by
  have hd := h.din hr hv
  have htype : (s.mem.itable dp).din.type = (s.node d).type := by rw [hd]; rfl
  have hsize : (s.mem.itable dp).din.size = (s.node d).size := by rw [hd]; rfl
  unfold dirlookup
  rw [wp_bind, wp_inode, htype, hsize]
  refine wp_ite (fun _ => ?_) fun hdir => ?_
  · exact hE.stops (by decide) (by decide)
  · have hdir := not_not.mp hdir
    refine wp_mono (dirlookupFrom_in (j := 0) (fun t _ => hE.full t) (hE.readPanic (by decide))
      ho h hr hv hdir
      (fun hs => hsolid hs hdir) _ (by omega)) (fun r t ht => ⟨hdir, ht.found⟩) fun _ _ he => he

/-! ## Entries that are not in use -/

/-- What the search of `dirlink` finds: the first entry that is not in use, or the end. -/
def Node.FirstFree (n : Node) (k : Nat) : Prop :=
  n.FreeSlot k ∧ ∀ j < k, entryInum n j ≠ 0

theorem dirlinkOff_in (hE : Benign m.strict m.sound E) (ho : m.strict = true ∨ s.Trans E)
    (h : In m w s) (hr : (dp, d) ∈ w.refs) (hv : dp ∈ w.valid) (htype : (s.node d).type = tDir)
    (fuel : Nat) (hfuel : (s.node d).size / direntSize < j + fuel)
    (hj : j ≤ (s.node d).size / direntSize) (hused : ∀ i < j, entryInum (s.node d) i ≠ 0) :
    wp I (dirlinkOff dp (s.node d).size fuel (direntSize * j)) (fun off t => In m w t ∧
      t.node = s.node ∧ (m.strict = true → t = s) ∧
      ∃ k, off = direntSize * k ∧ (s.node d).FirstFree k) E s := by
  induction fuel generalizing j s with
  | zero => omega
  | succ fuel ih =>
    have hwhole := (h.nodeOk hr hv).whole htype
    unfold dirlinkOff
    refine wp_ite (fun hlt => ?_) fun hge => ?_
    · have hend := (entry_end hwhole).mp hlt
      rw [entry_lt hwhole] at hlt
      refine readEntry_in "dirlink read" (fun de =>
        if direntInum de = 0 then pure (direntSize * j)
        else dirlinkOff dp (s.node d).size fuel (direntSize * j + direntSize))
        ho h hr hv hend (hE.readPanic (by decide)) fun t ht hnode hsame => ?_
      rw [direntInum_slice]
      refine wp_ite (fun hzero => ?_) fun hne => ?_
      · exact (wp_pure _).mpr ⟨ht, hnode, hsame, j, rfl, .inl ⟨hend, hzero⟩, hused⟩
      · have hnext : direntSize * j + direntSize = direntSize * (j + 1) := by ring
        rw [hnext, ← hnode]
        refine wp_mono (ih (h.logs ht ho) ht (hnode ▸ htype) (by rw [hnode]; omega)
          (by rw [hnode]; exact hlt) fun i hi => ?_) (fun off u hu => ?_) fun _ _ he => he
        · rw [hnode]
          rcases Nat.lt_succ_iff_lt_or_eq.mp hi with hi | rfl
          · exact hused i hi
          · exact hne
        · exact ⟨hu.1, hu.2.1, fun hst => (hu.2.2.1 hst).trans (hsame hst), hu.2.2.2⟩
    · refine (wp_pure _).mpr ⟨h, rfl, fun _ => rfl, j, rfl, .inr ?_, hused⟩
      rw [direntSize_eq] at *
      omega

theorem isdiremptyFrom_in (hE : Benign m.strict m.sound E) (ho : m.strict = true ∨ s.Trans E)
    (h : In m w s) (hr : (dp, d) ∈ w.refs) (hv : dp ∈ w.valid) (htype : (s.node d).type = tDir)
    (fuel : Nat) (hfuel : (s.node d).size / direntSize < j + fuel) :
    wp I (isdiremptyFrom dp (s.node d).size fuel (direntSize * j)) (fun r t => In m w t ∧
      t.node = s.node ∧ (r = true ↔ ∀ k, j ≤ k → direntSize * k + direntSize ≤ (s.node d).size →
        entryInum (s.node d) k = 0)) E s := by
  have hdone : ∀ {s : Store}, (s.node d).size / direntSize ≤ j →
      ∀ k, j ≤ k → direntSize * k + direntSize ≤ (s.node d).size → entryInum (s.node d) k = 0 := by
    intro s hj k hk hend
    rw [direntSize_eq] at *
    omega
  induction fuel generalizing j s with
  | zero => exact (wp_pure _).mpr ⟨h, rfl, iff_of_true rfl (hdone (by omega))⟩
  | succ fuel ih =>
    have hwhole := (h.nodeOk hr hv).whole htype
    unfold isdiremptyFrom
    refine wp_ite (fun hlt => ?_) fun hge => ?_
    · have hend := (entry_end hwhole).mp hlt
      refine readEntry_in "isdirempty: readi" (fun de =>
        if direntInum de ≠ 0 then pure false
        else isdiremptyFrom dp (s.node d).size fuel (direntSize * j + direntSize))
        ho h hr hv hend (hE.readPanic (by decide)) fun t ht hnode hsame => ?_
      rw [direntInum_slice]
      refine wp_ite (fun hne => ?_) fun hzero => ?_
      · refine (wp_pure _).mpr ⟨ht, hnode, iff_of_false Bool.false_ne_true fun hall => ?_⟩
        exact hne (hall j (Nat.le_refl j) hend)
      · have hnext : direntSize * j + direntSize = direntSize * (j + 1) := by ring
        rw [hnext, ← hnode]
        refine wp_mono (ih (h.logs ht ho) ht (hnode ▸ htype) (by rw [hnode]; omega) ?_)
          (fun r u hu => ?_) fun _ _ he => he
        · intro v hv k hk hkend
          rw [direntSize_eq] at *
          omega
        · obtain ⟨hin, hun, hiff⟩ := hu
          rw [← hnode] at hzero
          refine ⟨hin, hun, hiff.trans ⟨fun hall k hk => ?_, fun hall k hk => ?_⟩⟩
          · rcases Nat.eq_or_lt_of_le hk with rfl | hlt
            · exact fun _ => not_not.mp hzero
            · exact hall k hlt
          · exact hall k (by omega)
    · rw [entry_lt hwhole] at hge
      exact (wp_pure _).mpr ⟨h, rfl, iff_of_true rfl (hdone (by omega))⟩

theorem isdirempty_in (hE : Benign m.strict m.sound E) (ho : m.strict = true ∨ s.Trans E)
    (h : In m w s) (hr : (dp, d) ∈ w.refs) (hv : dp ∈ w.valid) (htype : (s.node d).type = tDir) :
    wp I (isdirempty dp) (fun r t => In m w t ∧ t.node = s.node ∧
      (r = true ↔ (s.node d).Empty)) E s := by
  have hsize : (s.mem.itable dp).din.size = (s.node d).size := by rw [h.din hr hv]; rfl
  unfold isdirempty
  rw [wp_bind, wp_inode, hsize, Nat.mul_comm 2]
  exact isdiremptyFrom_in hE ho h hr hv htype _ (by omega)

/-! ## New entries -/

theorem numberOf_direntBytes (name : List UInt8) (inum : Nat) :
    numberOf (direntBytes name inum) = inum % 65536 := by
  unfold numberOf direntBytes
  simp only [UInt8.toNat_ofNat']
  omega

theorem In.renode (h : In m w s) {N : Nat → Node} (hN : m.exact → w.node = N) :
    In m { w with node := N } s :=
  ⟨h.inv, h.sb, h.ops, h.ftable, h.proc, h.num, h.valid, h.sub,
    fun hx => (h.node hx).trans (hN hx), h.anchored, h.clean⟩

theorem In.setNode_same (h : In m w s) (ht : In m (w.setNode i (s.node i)) t) : In m w t := by
  refine ht.renode (N := w.node) fun hx => ?_
  show upd w.node i (s.node i) = w.node
  rw [h.node hx, upd_self]

/-- Why an entry at `k` is not written: the directory would be too long, or no block is free
for it. -/
def NoRoom (s : Store) (d k : Nat) (t : Store) : Prop :=
  maxFile * bsize < direntSize * k + direntSize ∨
    t.Full ∧ slotAddr s.blocks (s.inodeOf d) (dataSlot (direntSize * k / bsize)) = 0

/-- Without holes there is always room for an entry that is there already. -/
theorem In.room (h : In m w s) (hst : m.strict = true) (hr : (dp, d) ∈ w.refs) (hv : dp ∈ w.valid)
    (hend : direntSize * j + direntSize ≤ (s.node d).size) : ¬ NoRoom s d j t := by
  have hsize := h.size_le hr hv
  obtain ⟨P, -, hd⟩ := h.inv.disk
  have hs := h.inv.active hd (h.holds hr hv)
  have hok := hd.ok d hs.lt hs.type
  rw [(h.inv.node_holds (h.holds hr hv)).1] at hend hsize
  have hend : direntSize * j + direntSize ≤ (s.inodeOf d).size := hend
  have hsize : (s.inodeOf d).size ≤ maxFile * bsize := hsize
  rintro (hlong | ⟨-, hhole⟩)
  · omega
  · refine hok.mapped (direntSize * j / bsize) ?_ (.inr hst) hhole
    have hdiv := Nat.div_mul_le_self (direntSize * j) bsize
    rw [direntSize_eq] at *
    omega

theorem writeEntry_in {de : Nat → UInt8} (h : In m w s) (ho : 1 ≤ w.ops)
    (hr : (dp, d) ∈ w.refs) (hv : dp ∈ w.valid) (hde : numberOf de < w.sb.ninodes)
    (hend : direntSize * j ≤ (s.node d).size) :
    wp I (writei dp (.kernel de) (direntSize * j) direntSize) (fun r t =>
      (r ≠ direntSize ∧ In m w t ∧ t.node = s.node ∧ NoRoom s d j t) ∨
      (r = direntSize ∧ In m (w.setNode d ((s.node d).setEntry j de)) t ∧
        t.node = upd s.node d ((s.node d).setEntry j de))) E s := by
  have hoff : direntSize * j % direntSize = 0 := Nat.mul_mod_right _ _
  have hentry : entryWrite w.sb.ninodes (.kernel de) (direntSize * j) direntSize = true := by
    simp [entryWrite, hoff, hde]
  refine wp_mono (writei_in h ho hr hv (by decide) (fun _ => hentry) fun _ _ _ _ _ _ => .inl rfl)
    (fun r t ht => ?_) fun _ _ he => he
  rcases ht with ⟨hbad, rfl, rfl⟩ | ⟨hgood, P, tot, cnt, rfl, hw, hin, hnode⟩
  · refine .inl ⟨by decide, h, rfl, .inl ?_⟩
    have hmax : maxFile * bsize < 2 ^ 32 := by decide
    unfold WriteBad at hbad
    omega
  · obtain ⟨rfl, rfl | rfl⟩ := hw.entry_all hoff
    · left
      have hsame : (s.node d).written (.kernel de) (direntSize * j) 0 0 = s.node d := by
        unfold Node.written
        rw [Nat.add_zero, Nat.add_zero, splice_zero, Nat.max_eq_left hend]
      rw [hsame] at hin hnode
      have hwhole : (Src.kernel de).Whole direntSize := fun _ _ _ => rfl
      refine ⟨by decide, h.setNode_same hin, by rw [hnode, upd_self], .inr ⟨?_, ?_⟩⟩
      · exact (hw.short (by decide)).resolve_right (not_not.mpr hwhole)
      · by_contra hne
        have hbn : (direntSize * j + 0) / bsize < maxFile := by
          rw [Nat.div_lt_iff_lt_mul (by decide)]
          unfold WriteBad at hgood
          have := direntSize_eq
          omega
        exact hne ((hw.kept _ (dataSlot_lt hbn) hne).symm.trans (hw.hole hwhole (by decide)))
    · exact .inr ⟨rfl, hin, hnode⟩

theorem Node.FreeSlot.le {n : Node} {k : Nat} (h : n.FreeSlot k) : direntSize * k ≤ n.size := by
  unfold Node.FreeSlot at h
  omega

/-- What `dirlink` returns. -/
def Linked (m : Mode) (w : World) (s : Store) (d : Nat) (name : List UInt8) (inum : Nat) (r : Int)
    (t : Store) : Prop :=
  (r = -1 ∧ In m w t ∧ (m.exact → t.node = s.node) ∧
    ((s.node d).lookup name ≠ none ∨
      ∃ k, (s.node d).FirstFree k ∧ (m.strict = true → NoRoom s d k t))) ∨
  (r = 0 ∧ (s.node d).lookup name = none ∧ ∃ k, (s.node d).FirstFree k ∧
    In m (w.setNode d ((s.node d).setEntry k (direntBytes name inum))) t ∧
      t.node = upd s.node d ((s.node d).setEntry k (direntBytes name inum)))

theorem dirlink_in {inum : Nat} (hE : Benign m.strict m.sound E) (h : In m w s) (ho : 1 ≤ w.ops)
    (hr : (dp, d) ∈ w.refs) (hv : dp ∈ w.valid)
    (hsolid : m.sound → (s.node d).type = tDir → Solid s.node d)
    (hnum : inum % 65536 < w.sb.ninodes) :
    wp I (dirlink dp name inum) (fun r t => (s.node d).type = tDir ∧
      Linked m w s d name inum r t) E s := by
  unfold dirlink
  refine wp_seq (dirlookup_in hE (.inr (h.trans' ho)) h hr hv hsolid) fun r t ht => ?_
  obtain ⟨hdir, hnode, hres⟩ := ht
  cases r with
  | some r =>
    obtain ⟨i, k, hlook, -, hin⟩ := hres
    refine wp_seq (iput_fresh (w := { w with fresh := (r.1, i) :: w.fresh }) hE hin ho rfl)
      fun _ u hu => (wp_pure _).mpr ⟨hdir, .inl ⟨rfl, hu.1, fun hx => (hu.2 hx).trans hnode,
        .inl ?_⟩⟩
    rw [hlook]
    exact Option.some_ne_none _
  | none =>
    obtain ⟨hin, hsame, hlook⟩ := hres
    have hsize : (t.mem.itable dp).din.size = (t.node d).size := by rw [hin.din hr hv]; rfl
    rw [wp_bind, wp_inode, hsize]
    refine wp_seq (dirlinkOff_in (j := 0) hE (.inr (hin.trans' ho)) hin hr hv (hnode ▸ hdir) _
      (by omega) (Nat.zero_le _) fun _ hi => absurd hi (Nat.not_lt_zero _)) fun off u hu => ?_
    obtain ⟨hin', hnode', hsame', k, rfl, hfree⟩ := hu
    rw [hnode] at hnode' hfree
    refine wp_seq (writeEntry_in hin' ho hr hv ?_ ?_) fun r v hw => ?_
    · rw [numberOf_direntBytes]
      exact hnum
    · rw [hnode']
      exact hfree.1.le
    · rw [hnode'] at hw
      rcases hw with ⟨hne, hin'', hv', hroom⟩ | ⟨rfl, hin'', hv'⟩
      · rw [if_pos hne, wp_pure]
        refine ⟨hdir, .inl ⟨rfl, hin'', fun _ => hv', .inr ⟨k, hfree, fun hst => ?_⟩⟩⟩
        rw [(hsame' hst).trans (hsame hst)] at hroom
        exact hroom
      · rw [if_neg (not_not.mpr rfl), wp_pure]
        exact ⟨hdir, .inr ⟨rfl, hlook, k, hfree, hin'', hv'⟩⟩

/-! ## Paths -/

def World.take (w : World) (known : Bool) (ip i : Nat) : World :=
  if known then { w with refs := (ip, i) :: w.refs } else { w with fresh := (ip, i) :: w.fresh }

/-- The world with one more reference, locked. -/
def World.lock (w : World) (ip i : Nat) : World :=
  { w with refs := (ip, i) :: w.refs, valid := ip :: w.valid }

/-- Copies and anchors are of references. -/
structure World.Closed (w : World) : Prop where
  valid : ∀ jp ∈ w.valid, jp ∈ w.held
  anchors : ∀ jp ∈ w.anchors, jp ∈ w.held

theorem In.closed (h : In m w s) : w.Closed := ⟨fun jp hjp => (h.valid jp hjp).1, h.sub⟩

theorem ilock_take {known : Bool} (hE : Benign m.strict m.sound E)
    (h : In m (w.take known ip i) s) :
    wp I (ilock ip) (fun _ t => In m (w.lock ip i) t ∧ t.node = s.node) E s := by
  cases known with
  | true => exact ilock_in (w := { w with refs := (ip, i) :: w.refs }) hE h List.mem_cons_self
  | false => exact ilock_fresh (w := { w with fresh := (ip, i) :: w.fresh }) hE h rfl

theorem iput_take {known : Bool} (hE : Benign m.strict m.sound E)
    (h : In m (w.take known ip i) s) (ho : 1 ≤ w.ops) (hw : w.Closed) :
    wp I (iput ip) (fun _ t => In m w t ∧ (m.exact → t.node = s.node)) E s := by
  cases known with
  | true =>
    exact iput_in (w := { w with refs := (ip, i) :: w.refs }) hE h ho rfl hw.anchors
      fun jp hjp => ⟨hjp, hw.valid jp hjp⟩
  | false => exact iput_fresh (w := { w with fresh := (ip, i) :: w.fresh }) hE h ho rfl

theorem iunlockput_in (hE : Benign m.strict m.sound E) (h : In m (w.lock ip i) s)
    (ho : 1 ≤ w.ops) (hw : w.Closed) :
    wp I (iunlockput ip) (fun _ t => In m w t ∧ (m.exact → t.node = s.node)) E s := by
  refine wp_seq (iunlock_in hE h List.mem_cons_self) fun _ t ht => ?_
  refine wp_mono (iput_in (w := w.lock ip i) (V := w.valid) hE ht.1 ho rfl hw.anchors fun jp hjp =>
    ⟨?_, hw.valid jp hjp⟩)
    (fun _ u hu => ⟨hu.1, fun hx => (hu.2 hx).trans ht.2⟩) fun _ _ he => he
  exact List.mem_cons_of_mem _ hjp

/-- With sound references, every entry of a directory names an allocated inode. -/
def Rooted (N : Nat → Node) : Prop :=
  (N rootIno).type ≠ 0 ∧ ∀ d, (N d).type = tDir → Solid N d

/-- What following a path leads to: `res` is what the walk through the nodes gives. -/
def Reached (m : Mode) (w : World) (s : Store) (parent : Bool) (res : Option (Nat × List UInt8))
    (r : Option (Nat × List UInt8)) (t : Store) : Prop :=
  (m.exact → t.node = s.node) ∧ match r with
  | none => In m w t ∧ (m.exact → res = none)
  | some (jp, name) => ∃ j known, In m (w.take known jp j) t ∧ (parent = true → known = true) ∧
      (m.exact → res = some (j, name))

theorem Reached.after {t' : Store} {parent : Bool} {res res' r : Option (Nat × List UInt8)}
    (h : Reached m w t parent res r t') (ht : m.exact → t.node = s.node)
    (hres : m.exact → res = res') : Reached m w s parent res' r t' := by
  refine ⟨fun hx => (h.1 hx).trans (ht hx), ?_⟩
  have hlast := h.2
  cases r with
  | none => exact ⟨hlast.1, fun hx => (hres hx).symm.trans (hlast.2 hx)⟩
  | some r =>
    obtain ⟨j, known, hin, hp, hj⟩ := hlast
    exact ⟨j, known, hin, hp, fun hx => (hres hx).symm.trans (hj hx)⟩

theorem namexFrom_in {known parent : Bool} (hE : Benign m.strict m.sound E)
    (h : In m (w.take known ip i) s) (ho : 1 ≤ w.ops) (hw : w.Closed)
    (hs : m.sound → m.exact ∧ Rooted s.node) (elems : List (List UInt8)) :
    wp I (namexFrom parent ip elems) (Reached m w s parent (walk s.node parent i elems)) E s := by
  induction elems generalizing ip i known s with
  | nil =>
    unfold namexFrom walk
    refine wp_ite (fun hp => ?_) fun hp => (wp_pure _).mpr
      ⟨fun _ => rfl, i, known, h, fun h' => ?_, ?_⟩
    · refine wp_seq (iput_take hE h ho hw) fun _ t ht => (wp_pure _).mpr ⟨ht.2, ht.1, fun _ => ?_⟩
      rw [if_pos hp]
    · exact absurd h' hp
    · intro _
      rw [if_neg hp]
  | cons name rest ih =>
    unfold namexFrom
    refine wp_seq (ilock_take hE h) fun _ t ht => ?_
    obtain ⟨hin, hnode⟩ := ht
    have hr : (ip, i) ∈ (w.lock ip i).refs := List.mem_cons_self
    have hv : ip ∈ (w.lock ip i).valid := List.mem_cons_self
    have htype : (t.mem.itable ip).din.type = (s.node i).type := by
      rw [← hnode, hin.din hr hv]
      rfl
    rw [wp_bind, wp_inode, htype]
    rw [walk]
    refine wp_ite (fun hty => ?_) fun hty => ?_
    · rw [if_pos hty]
      refine wp_seq (iunlockput_in hE hin ho hw) fun _ u hu => (wp_pure _).mpr ?_
      exact ⟨fun hx => (hu.2 hx).trans hnode, hu.1, fun _ => rfl⟩
    · rw [if_neg hty]
      refine wp_ite (fun hlast => ?_) fun hlast => ?_
      · rw [if_pos hlast]
        refine wp_seq (iunlock_in hE hin hr) fun _ u hu => (wp_pure _).mpr ?_
        refine ⟨fun _ => hu.2.trans hnode, i, true, ?_, fun _ => rfl, fun _ => rfl⟩
        exact hu.1.forget (V := w.valid) (A := w.anchors) (fun _ hjp => List.mem_cons_of_mem _ hjp)
          (fun _ hjp => hjp) fun jp hjp => List.mem_cons_of_mem _ (hw.anchors jp hjp)
      · rw [if_neg hlast]
        have hs' : m.sound → m.exact ∧ Rooted t.node := by
          rw [hnode]
          exact hs
        refine wp_seq (dirlookup_in hE (.inr (hin.trans' ho)) hin hr hv fun hsd hdir =>
          (hs' hsd).2.2 i hdir) fun r u hu => ?_
        obtain ⟨-, hun, hres⟩ := hu
        rw [hnode] at hun hres
        cases r with
        | none =>
          obtain ⟨hin', -, hlook⟩ := hres
          rw [hlook]
          refine wp_seq (iunlockput_in hE hin' ho hw) fun _ v hv => (wp_pure _).mpr ?_
          exact ⟨fun hx => (hv.2 hx).trans hun, hv.1, fun _ => rfl⟩
        | some e =>
          obtain ⟨j, k, hlook, -, hin'⟩ := hres
          rw [hlook]
          have hfresh : In m ((w.take false e.1 j).lock ip i) u := hin'
          refine wp_seq (iunlockput_in hE hfresh ho ⟨hw.valid, hw.anchors⟩) fun _ v hv => ?_
          have hsame : m.exact → v.node = s.node := fun hx => (hv.2 hx).trans hun
          refine wp_mono (ih hv.1 fun hsd => ?_) (fun r u' hu' => ?_)
            fun _ _ he => he
          · rw [hsame (hs hsd).1]
            exact hs hsd
          · exact hu'.after hsame fun hx => by rw [hsame hx]

theorem namex_in {cwd c : Nat} {path : List UInt8} {parent : Bool}
    (hE : Benign m.strict m.sound E) (h : In m w s) (ho : 1 ≤ w.ops)
    (hs : m.sound → m.exact ∧ Rooted s.node) (hroot : rootIno < w.sb.ninodes)
    (hc : (cwd, c) ∈ w.refs) :
    wp I (namex cwd path parent) (Reached m w s parent (resolve s.node c path parent)) E s := by
  have hnext : ∀ (known : Bool) {ip : Nat} {t : Store} (i : Nat), In m (w.take known ip i) t →
      t.node = s.node → wp I (namexFrom parent ip (pathElems path.length path))
        (Reached m w s parent (walk s.node parent i (pathElems path.length path))) E t := by
    intro known ip t i hin hnode
    have hs' : m.sound → m.exact ∧ Rooted t.node := by
      rw [hnode]
      exact hs
    refine wp_mono (namexFrom_in hE hin ho h.closed hs' _) (fun r u hu => ?_) fun _ _ he => he
    exact hu.after (fun _ => hnode) fun _ => by rw [hnode]
  unfold namex resolve pathStart
  refine wp_ite (fun habs => ?_) fun hrel => ?_
  · rw [if_pos habs]
    refine wp_seq (iget_in (fun _ => hE.full s) h hroot fun hsd => (hs hsd).2.1) fun ip t ht => ?_
    exact hnext false rootIno ht.1 ht.2
  · rw [if_neg hrel]
    refine wp_seq (idup_in h hc) fun ip t ht => ?_
    obtain ⟨rfl, hin, hnode⟩ := ht
    exact hnext true c hin hnode

theorem nameiparent_in {cwd c : Nat} {path : List UInt8} (hE : Benign m.strict m.sound E)
    (h : In m w s) (ho : 1 ≤ w.ops) (hs : m.sound → m.exact ∧ Rooted s.node)
    (hroot : rootIno < w.sb.ninodes) (hc : (cwd, c) ∈ w.refs) :
    wp I (nameiparent cwd path) (Reached m w s true (resolve s.node c path true)) E s :=
  namex_in hE h ho hs hroot hc

def Named (m : Mode) (w : World) (s : Store) (res : Option Nat) (r : Option Nat) (t : Store) :
    Prop :=
  (m.exact → t.node = s.node) ∧ match r with
  | none => In m w t ∧ (m.exact → res = none)
  | some jp => ∃ j known, In m (w.take known jp j) t ∧ (m.exact → res = some j)

theorem namei_in {cwd c : Nat} {path : List UInt8} (hE : Benign m.strict m.sound E)
    (h : In m w s) (ho : 1 ≤ w.ops) (hs : m.sound → m.exact ∧ Rooted s.node)
    (hroot : rootIno < w.sb.ninodes) (hc : (cwd, c) ∈ w.refs) :
    wp I (namei cwd path) (Named m w s ((resolve s.node c path false).map Prod.fst)) E s := by
  refine wp_seq (namex_in hE h ho hs hroot hc) fun r t ht => (wp_pure _).mpr ⟨ht.1, ?_⟩
  have hres := ht.2
  cases r with
  | none => exact ⟨hres.1, fun hx => by rw [hres.2 hx]; rfl⟩
  | some r =>
    obtain ⟨j, known, hin, -, hj⟩ := hres
    exact ⟨j, known, hin, fun hx => by rw [hj hx]; rfl⟩

end

end Xv6.Fs
