import Xv6.Kernel.Exec.Image

/-! # The arguments of a program

`exec` pushes the argument strings and then the array of their addresses on a stack of one page.
Every push ends where the one before it starts, so that none overwrites another, and the only
limit is the size of the page.
-/

namespace Xv6.Exec

open Lib Vm

/-! ## What a program finds -/

instance (f : Nat → Nat) (v : Nat) : Decidable (UserMapped f v) := by
  unfold UserMapped
  infer_instance

/-- What the program reads at an address, through the table of the process. -/
def userRead (t : Kern) (a : Nat) : Option UInt8 :=
  if UserMapped (leafPte t.proc.pagetable t.phys) (a / pgSize) then
    some (t.phys.mem (physOf (leafPte t.proc.pagetable t.phys) a))
  else none

def UserString (t : Kern) (a : Nat) (s : List UInt8) : Prop :=
  0 ∉ s ∧ ∀ i ≤ s.length, userRead t (a + i) = some ((s ++ [0]).getD i 0)

def UserWord (t : Kern) (a w : Nat) : Prop :=
  ∀ i < 8, userRead t (a + i) = some (UInt8.ofNat (w / 256 ^ i))

/-- A size with the padding to a multiple of 16. -/
def size16 (n : Nat) : Nat := (n + 15) / 16 * 16

def stringsSize (argv : List (List UInt8)) : Nat := (argv.map fun s => size16 (s.length + 1)).sum

def argsSize (argv : List (List UInt8)) : Nat := stringsSize argv + size16 ((argv.length + 1) * 8)

structure ValidArgs (argv : List (List UInt8)) : Prop where
  count : argv.length < maxArg
  short : ∀ s ∈ argv, s.length < pgSize
  text : ∀ s ∈ argv, 0 ∉ s

structure ArgsPassed (argv : List (List UInt8)) (t : Kern) (sp : Nat) (ustack : List Nat) :
    Prop where
  aligned : 16 ∣ sp
  inStack : t.proc.sz - pgSize ≤ sp ∧ sp < t.proc.sz
  sp_reg : getLE t.phys.mem (t.proc.trapframe + tfSp) 8 = sp
  a1_reg : getLE t.phys.mem (t.proc.trapframe + tfA1) 8 = sp
  words : ∀ i ≤ argv.length, UserWord t (sp + 8 * i) ((ustack ++ [0]).getD i 0)
  strings : List.Forall₂ (fun s u => 16 ∣ u ∧ t.proc.sz - pgSize ≤ u ∧
    u + s.length < t.proc.sz ∧ UserString t u s) argv ustack
  guard : leafPte t.proc.pagetable t.phys ((t.proc.sz - pgSize) / pgSize - 1) &&& pteU = 0

section

variable {K : Image} {L₀ L : List Nat} {k₀ k t : Kern} {pt base : Nat} {us : List UserPage}
  {Q : Multiset Nat}

/-! ## Pushing -/

theorem Stacked.move (h : Stacked K L₀ k₀ pt base us L Q k)
    (hb : Building K L₀ k₀ pt (base + 2 * pgSize) us L Q t) : Stacked K L₀ k₀ pt base us L Q t :=
  ⟨hb, h.aligned, h.guard, h.stack⟩

theorem Stacked.reachable (h : Stacked K L₀ k₀ pt base us L Q k) {va len : Nat}
    (hlo : base + pgSize ≤ va) (hhi : va + len ≤ base + 2 * pgSize) :
    Reachable (withUser us (upper K k₀.proc.trapframe)) va len := by
  obtain ⟨c, rfl⟩ := h.aligned
  obtain ⟨u, hu, hU⟩ := h.stack
  obtain ⟨hv, rfl⟩ := List.getElem?_eq_some_iff.mp hu
  have hok := h.building.space.users _ (List.getElem_mem hv)
  intro j hj
  have hpage : (va + j) / pgSize = pgSize * c / pgSize + 1 := by
    simp only [pgSize] at *
    omega
  rw [hpage, UserMapped, withUser_of_lt hv]
  refine ⟨hv.trans (h.building.space.length_lt.trans (by decide)), hok.isLeaf.valid, ?_⟩
  rwa [and_flags (by decide), hok.pteFlags]

theorem Stacked.copyout (h : Stacked K L₀ k₀ pt base us L Q k) {va len : Nat} {src : Bytes}
    (hlo : base + pgSize ≤ va) (hhi : va + len ≤ base + 2 * pgSize) :
    Does (vm (copyout pt va src len)) (fun r t => r = 0 ∧ Stacked K L₀ k₀ pt base us L Q t ∧
      Overlaid us k.phys.mem t.phys.mem va len src) k := by
  refine h.building.copyout.mono fun r t hr => ?_
  obtain ⟨hb, n, hstop, hover⟩ := hr
  have hzero := hstop.ends.zero_iff.mpr (h.reachable hlo hhi)
  obtain rfl : n = len := hstop.ends.whole hzero
  exact ⟨hzero, h.move hb, hover⟩

structure PlacedAt (us : List UserPage) (m : Bytes) (lo hi : Nat) (s : List UInt8) (u : Nat) :
    Prop where
  aligned : 16 ∣ u
  low : lo ≤ u
  high : u + s.length < hi
  bytes : ∀ i ≤ s.length, userByte us m (u + i) = some ((s ++ [0]).getD i 0)

theorem PlacedAt.mono {m m' : Bytes} {lo hi lo' hi' u : Nat} {s : List UInt8}
    (h : PlacedAt us m lo hi s u) (hlo : lo' ≤ lo) (hhi : hi ≤ hi')
    (hm : ∀ a, lo ≤ a → a < hi → userByte us m' a = userByte us m a) :
    PlacedAt us m' lo' hi' s u := by
  have hlow := h.low
  have hhigh := h.high
  refine ⟨h.aligned, by omega, by omega, fun i hi => ?_⟩
  rw [hm _ (by omega) (by omega)]
  exact h.bytes i hi

theorem align16_sub64 {sp n : Nat} (hsp : 16 ∣ sp) (hlt : sp < 2 ^ 64) (hn : size16 n ≤ sp) :
    align16 (sub64 sp n) = sp - size16 n := by
  simp only [align16, sub64, size16] at *
  omega

theorem le_size16 (n : Nat) : n ≤ size16 n ∧ 16 ∣ size16 n := by
  simp only [size16]
  omega

theorem size16_le {n : Nat} (h : n ≤ pgSize) : size16 n ≤ pgSize := by
  simp only [size16, pgSize] at *
  omega

theorem stringsSize_aligned (argv : List (List UInt8)) : 16 ∣ stringsSize argv := by
  apply List.dvd_sum
  intro n hn
  obtain ⟨s, -, rfl⟩ := List.mem_map.mp hn
  exact (le_size16 _).2

structure Pushed (us : List UserPage) (m : Bytes) (argv : List (List UInt8)) (sp : Nat)
    (new : List Nat) (m' : Bytes) : Prop where
  strings : List.Forall₂ (PlacedAt us m' (sp - stringsSize argv) sp) argv new
  kept : ∀ a, sp ≤ a → userByte us m' a = userByte us m a

theorem pushArgs_exact {argv : List (List UInt8)} {sp : Nat} {ustack : List Nat}
    (h : Stacked K L₀ k₀ pt base us L Q k) (hal : 16 ∣ sp) (hlo : base + pgSize ≤ sp)
    (hhi : sp ≤ base + 2 * pgSize) (hshort : ∀ s ∈ argv, s.length < pgSize)
    (hcount : ustack.length + argv.length < maxArg) :
    Does (pushArgs pt (base + pgSize) argv sp ustack) (fun r t =>
      Stacked K L₀ k₀ pt base us L Q t ∧
      if base + pgSize + stringsSize argv ≤ sp then
        ∃ new, r = some (sp - stringsSize argv, ustack ++ new) ∧
          Pushed us k.phys.mem argv sp new t.phys.mem
      else r = none) k := by
  have hsmall := h.building.space.small h.building.size
  induction argv generalizing k sp ustack with
  | nil =>
    rw [pushArgs, Does.pure, if_pos (by simpa [stringsSize] using hlo)]
    refine ⟨h, [], by simp [stringsSize], .nil, fun _ _ => rfl⟩
  | cons s argv ih =>
    have hs := hshort s List.mem_cons_self
    obtain ⟨hle, h16⟩ := le_size16 (s.length + 1)
    have hpage := size16_le (n := s.length + 1) hs
    have hsum : stringsSize (s :: argv) = size16 (s.length + 1) + stringsSize argv := by
      simp [stringsSize]
    rw [List.length_cons] at hcount
    have hsp : align16 (sub64 sp (s.length + 1)) = sp - size16 (s.length + 1) :=
      align16_sub64 hal (by simp only [pgSize] at *; omega) (by omega)
    rw [pushArgs, if_neg (by omega)]
    dsimp only
    rw [hsp, hsum]
    refine Does.ite (fun hfull => ?_) fun hroom => ?_
    · rw [Does.pure, if_neg (by omega)]
      exact ⟨h, rfl⟩
    · rw [Does.bind]
      refine (h.copyout (by omega) (by omega)).mono fun r t ht => ?_
      obtain ⟨rfl, ht, hover⟩ := ht
      rw [if_neg (by decide)]
      refine (ih ht (Nat.dvd_sub hal h16) (by omega) (by omega)
        (fun s' hs' => hshort s' (List.mem_cons_of_mem _ hs'))
        (by rw [List.length_append, List.length_singleton]; omega)).mono fun r w hw => ?_
      refine ⟨hw.1, ?_⟩
      have hrest := hw.2
      by_cases hfit : base + pgSize + (size16 (s.length + 1) + stringsSize argv) ≤ sp
      · rw [if_pos (by omega)] at hrest
        rw [if_pos hfit]
        obtain ⟨new, rfl, hpushed⟩ := hrest
        refine ⟨(sp - size16 (s.length + 1)) :: new, ?_, ?_, fun a ha => ?_⟩
        · rw [List.append_assoc, Nat.sub_sub]
          rfl
        · rw [hsum]
          refine .cons ⟨Nat.dvd_sub hal h16, by omega, by omega, fun i hi => ?_⟩ ?_
          · rw [hpushed.kept _ (by omega), hover, if_pos (by omega), Nat.add_sub_cancel_left]
            rfl
          · exact hpushed.strings.imp fun _ _ hp => hp.mono (by omega) (by omega) fun _ _ _ => rfl
        · rw [hpushed.kept a (by omega), hover a, if_neg (by omega)]
      · rw [if_neg (by omega)] at hrest
        rw [if_neg hfit]
        exact hrest

/-- The stack after the strings and the array of their addresses were pushed. -/
structure Laid (us : List UserPage) (argv : List (List UInt8)) (base sp : Nat) (ustack : List Nat)
    (m : Bytes) : Prop where
  aligned : 16 ∣ sp
  low : base + pgSize ≤ sp
  high : sp + (argv.length + 1) * 8 ≤ base + 2 * pgSize
  words : ∀ j < (argv.length + 1) * 8, userByte us m (sp + j) = some (wordsOf (ustack ++ [0]) j)
  strings : List.Forall₂ (PlacedAt us m (base + pgSize) (base + 2 * pgSize)) argv ustack

theorem pushStack_exact {argv : List (List UInt8)} (h : Stacked K L₀ k₀ pt base us L Q k)
    (hargv : ValidArgs argv) :
    Does (pushStack pt (base + 2 * pgSize) argv) (fun r t => Stacked K L₀ k₀ pt base us L Q t ∧
      if argsSize argv ≤ pgSize then
        ∃ sp ustack, r = .ok (base + 2 * pgSize, sp, argv.length) ∧
          Laid us argv base sp ustack t.phys.mem
      else r = .error (base + 2 * pgSize)) k := by
  have hsmall := h.building.space.small h.building.size
  have hal : 16 ∣ base + 2 * pgSize := by
    obtain ⟨c, hc⟩ := h.aligned
    rw [hc]
    simp only [pgSize]
    omega
  have hcount := hargv.count
  obtain ⟨hle, h16⟩ := le_size16 ((argv.length + 1) * 8)
  have hpage : size16 ((argv.length + 1) * 8) ≤ pgSize := by
    apply size16_le
    simp only [maxArg, pgSize] at *
    omega
  unfold pushStack
  dsimp only
  rw [h.stackbase, Does.bind]
  have hpush : Does (pushArgs pt (base + pgSize) argv (base + 2 * pgSize) []) _ k :=
    pushArgs_exact h hal (by omega) (Nat.le_refl _) hargv.short (by simpa using hcount)
  refine hpush.mono fun r t ht => ?_
  obtain ⟨ht, hr⟩ := ht
  by_cases hstrings : base + pgSize + stringsSize argv ≤ base + 2 * pgSize
  · rw [if_pos hstrings] at hr
    obtain ⟨ustack, rfl, hpushed⟩ := hr
    have hlen : ustack.length = argv.length := hpushed.strings.length_eq.symm
    have hsal := stringsSize_aligned argv
    have hsp : align16 (sub64 (base + 2 * pgSize - stringsSize argv) ((argv.length + 1) * 8)) =
        base + 2 * pgSize - argsSize argv := by
      rw [align16_sub64 (Nat.dvd_sub hal hsal) (by simp only [pgSize] at *; omega) (by omega),
        Nat.sub_sub]
      rfl
    dsimp only
    rw [List.nil_append, hlen, if_neg (by omega), hsp]
    have hargs : argsSize argv = stringsSize argv + size16 ((argv.length + 1) * 8) := rfl
    refine Does.ite (fun hfull => ?_) fun hroom => ?_
    · rw [Does.pure, if_neg (by omega)]
      exact ⟨ht, rfl⟩
    · rw [Does.bind]
      refine (ht.copyout (by omega) (by omega)).mono fun r w hw => ?_
      obtain ⟨rfl, hw, hover⟩ := hw
      rw [if_neg (by decide), Does.pure, if_pos (by omega)]
      refine ⟨hw, _, ustack, rfl, Nat.dvd_sub hal (Nat.dvd_add hsal h16), by omega, by omega,
        fun j hj => ?_, hpushed.strings.imp fun s u hp => ?_⟩
      · rw [hover, if_pos (by omega), Nat.add_sub_cancel_left]
      · refine hp.mono (by omega) (Nat.le_refl _) fun a hlo hhi => ?_
        rw [hover, if_neg (by omega)]
  · rw [if_neg hstrings] at hr
    subst hr
    have hargs : argsSize argv = stringsSize argv + size16 ((argv.length + 1) * 8) := rfl
    rw [Does.pure, if_neg (by omega)]
    exact ⟨ht, rfl⟩

/-! ## The new program -/

theorem userRead_eq {sz tf : Nat} (h : AddrSpace K t.phys L t.proc.pagetable sz tf us Q) {a : Nat}
    (ha : UserMapped (withUser us (upper K tf)) (a / pgSize)) :
    userRead t a = userByte us t.phys.mem a := by
  have hpte := h.space.owns.table.leafPte ha.1
  have hmapped : UserMapped (leafPte t.proc.pagetable t.phys) (a / pgSize) := by
    rw [UserMapped, hpte]
    exact ha
  rw [userRead, if_pos hmapped, h.space.userByte_eq (ha.lt (upper_kernel K tf)), physOf, physOf,
    hpte]

theorem Laid.mono {argv : List (List UInt8)} {sp : Nat} {ustack : List Nat} {m m' : Bytes}
    (h : Laid us argv base sp ustack m) (hm : ∀ a, userByte us m' a = userByte us m a) :
    Laid us argv base sp ustack m' := by
  refine ⟨h.aligned, h.low, h.high, fun j hj => ?_, h.strings.imp fun s u hp => ?_⟩
  · rw [hm]
    exact h.words j hj
  · exact hp.mono (Nat.le_refl _) (Nat.le_refl _) fun a _ _ => hm a

/-- What was laid on the stack is what the new program finds. -/
theorem Laid.passed {w : Kern} {argv : List (List UInt8)} {sp entry : Nat} {ustack : List Nat}
    {us₀ : List UserPage} {Q₀ : Multiset Nat} (hargv : ValidArgs argv)
    (ha : AddrSpace K k.phys L₀ k.proc.pagetable k.proc.sz k.proc.trapframe us₀ Q₀)
    (hw : Stacked K L₀ k pt base us L Q w) (hl : Laid us argv base sp ustack w.phys.mem)
    (hc : Committed K L₀ us₀ Q₀ k w pt (base + 2 * pgSize) sp entry us Q t) :
    ArgsPassed argv t sp ustack := by
  obtain ⟨L', hrep⟩ := hc.replaced
  have hsmall := hw.building.space.small hw.building.size
  have hl := hl.mono fun a => hc.userByte_eq ha hw.building a
  have hlow := hl.low
  have hhigh := hl.high
  have hsp : sp % 2 ^ 64 = sp := Nat.mod_eq_of_lt (by simp only [pgSize] at *; omega)
  have hbase : base + 2 * pgSize - pgSize = base + pgSize := by omega
  have hread : ∀ {a}, base + pgSize ≤ a → a < base + 2 * pgSize →
      userRead t a = userByte us t.phys.mem a := by
    intro a hlo hhi
    have hreach : Reachable _ a 1 := hw.reachable hlo (by omega)
    refine userRead_eq hrep.space ?_
    rw [hrep.trapframe]
    exact hreach 0 (by omega)
  refine ⟨hl.aligned, ?_, ?_, ?_, fun i hi b hb => ?_, ?_, ?_⟩
  · rw [hc.size, hbase]
    exact ⟨hlow, by omega⟩
  · rw [hrep.trapframe, hc.entered.stack, hsp]
  · rw [hrep.trapframe, hc.entered.a1, hsp]
  · have hdiv : (8 * i + b) / 8 = i := by omega
    have hmod : (8 * i + b) % 8 = b := by omega
    rw [hread (by omega) (by omega), Nat.add_assoc, hl.words _ (by omega), wordsOf, hdiv, hmod]
  · refine List.forall₂_iff_zip.mpr ⟨hl.strings.length_eq, fun {s u} hmem => ?_⟩
    have hp := (List.forall₂_iff_zip.mp hl.strings).2 hmem
    have hlow := hp.low
    have hhigh := hp.high
    rw [hc.size, hbase]
    refine ⟨hp.aligned, hlow, hhigh, hargv.text s (List.of_mem_zip hmem).1, fun i hi => ?_⟩
    rw [hread (by omega) (by omega)]
    exact hp.bytes i hi
  · obtain ⟨u, hu, hU⟩ := hw.guard
    obtain ⟨hv, rfl⟩ := List.getElem?_eq_some_iff.mp hu
    have hpage : (base + pgSize) / pgSize - 1 = base / pgSize := by
      simp only [pgSize]
      omega
    have hend : base / pgSize < vpnEnd := hv.trans (hw.building.space.length_lt.trans (by decide))
    rw [hc.size, hbase, hpage, hrep.space.space.owns.table.leafPte hend, withUser_of_lt hv,
      and_flags (by decide), (hw.building.space.users _ (List.getElem_mem hv)).pteFlags]
    exact hU

/-- From the state in which they are pushed: the arguments fit and are passed, or they do not
fit and `exec` fails. -/
theorem Ready.finish {f : File} {w : Kern} {path : List UInt8} {argv : List (List UInt8)}
    {us₀ : List UserPage} {Q₀ : Multiset Nat} {entry : Nat}
    (hw : Ready K L₀ k f pt base us L Q w) (hargv : ValidArgs argv)
    (ha : AddrSpace K k.phys L₀ k.proc.pagetable k.proc.sz k.proc.trapframe us₀ Q₀) :
    Does (pushStack pt (base + 2 * pgSize) argv >>= finish K pt entry path) (fun r t =>
      if argsSize argv ≤ pgSize then
        r = argv.length ∧ ∃ sp ustack, ArgsPassed argv t sp ustack
      else r = -1) w := by
  rw [Does.bind]
  refine (pushStack_exact hw.stacked hargv).mono fun r x hx => ?_
  obtain ⟨hx, hr⟩ := hx
  by_cases hfit : argsSize argv ≤ pgSize
  · rw [if_pos hfit] at hr
    obtain ⟨sp, ustack, rfl, hlaid⟩ := hr
    rw [Exec.finish, Does.bind]
    refine (commit_spec hx.building ha).mono fun _ t ht => ?_
    rw [Does.pure, if_pos hfit]
    exact ⟨rfl, sp, ustack, hlaid.passed hargv ha hx ht⟩
  · rw [if_neg hfit] at hr
    subst hr
    refine (bad_closed ⟨us, L, Q, hx.building⟩).mono fun r _ hbad => ?_
    rw [if_neg hfit]
    exact hbad.1

def ExecEnds (K : Image) (file : Option File) (path : List UInt8) (k : Kern)
    (argv : List (List UInt8)) (r : Int) (t : Kern) : Prop :=
  ∃ vs, exec K file path argv k = ⟨.ok r, t, vs⟩

theorem ExecEnds.unique {file : Option File} {path : List UInt8} {argv : List (List UInt8)}
    {r : Int} {R : Int → Kern → Prop} (h : ExecEnds K file path k argv r t)
    (hR : Does (exec K file path argv) R k) : R r t := by
  obtain ⟨vs, heq⟩ := h
  obtain ⟨r', t', vs', heq', hr'⟩ := hR.result
  cases heq.symm.trans heq'
  exact hr'

/-- For every file and every list of fewer than `MAXARG` strings that are each shorter than a page:
`exec` returns; if it succeeds it returns the number of the strings and the program finds them.
And where it succeeds for some arguments at all, it fails for others exactly if they take more
than a page. -/
theorem exec_passes_arguments {us₀ : List UserPage} {Q₀ : Multiset Nat} (file : Option File)
    (path : List UInt8) (k : Kern)
    (ha : AddrSpace K k.phys L₀ k.proc.pagetable k.proc.sz k.proc.trapframe us₀ Q₀)
    (hlock : k.locked = false) (href : 0 ≤ k.ref) :
    (∀ argv, ValidArgs argv → ∃ r t, ExecEnds K file path k argv r t ∧
      (r = -1 ∨ r = argv.length ∧ ∃ sp ustack, ArgsPassed argv t sp ustack)) ∧
    ∀ argv₀ r₀ t₀, ValidArgs argv₀ → ExecEnds K file path k argv₀ r₀ t₀ → 0 ≤ r₀ →
      ∀ argv, ValidArgs argv →
        ((∃ t, ExecEnds K file path k argv (-1) t) ↔ pgSize < argsSize argv) := by
  have hcases : (∀ argv, Does (exec K file path argv) (fun r _ => r = -1) k) ∨
      ∀ argv, ValidArgs argv → Does (exec K file path argv) (fun r t =>
        if argsSize argv ≤ pgSize then
          r = argv.length ∧ ∃ sp ustack, ArgsPassed argv t sp ustack
        else r = -1) k := by
    cases file with
    | none => exact .inl fun argv => (exec_missing ha.space.owns.free).mono fun _ _ h => h.1
    | some f =>
      rcases exec_splits ha hlock href with hfail | ⟨pt, base, us, L, Q, w, hready, hrun⟩
      · exact .inl hfail
      · exact .inr fun argv hargv => hrun argv _ (hready.finish hargv ha)
  constructor
  · intro argv hargv
    rcases hcases with hfail | hrun
    · obtain ⟨r, t, vs, heq, hr⟩ := (hfail argv).result
      exact ⟨r, t, ⟨vs, heq⟩, .inl hr⟩
    · obtain ⟨r, t, vs, heq, hr⟩ := (hrun argv hargv).result
      refine ⟨r, t, ⟨vs, heq⟩, ?_⟩
      split at hr
      · exact .inr hr
      · exact .inl hr
  · intro argv₀ r₀ t₀ _ hends hpos argv hargv
    rcases hcases with hfail | hrun
    · have hr := hends.unique (hfail argv₀)
      omega
    · constructor
      · rintro ⟨t, ht⟩
        have hr := ht.unique (hrun argv hargv)
        by_contra hfit
        rw [if_pos (by omega)] at hr
        omega
      · intro hbig
        obtain ⟨r, t, vs, heq, hr⟩ := (hrun argv hargv).result
        rw [if_neg (by omega)] at hr
        exact ⟨t, vs, hr ▸ heq⟩

end

theorem exec_passes_arguments_first : ∃ t sp ustack,
    ExecEnds sixteenPages (some (segmentFile 0)) [47, 104] firstKern [[104], [105, 106]] 2 t ∧
      ArgsPassed [[104], [105, 106]] t sp ustack := by
  obtain ⟨L, us, Q, ha⟩ := firstKern_space
  obtain ⟨r, t, ⟨vs, heq⟩, hr⟩ := (exec_passes_arguments (some (segmentFile 0)) [47, 104] firstKern
    ha rfl (by decide)).1 [[104], [105, 106]] ⟨by decide, by decide, by decide⟩
  have htwo : r = (2 : Nat) := exec_segmentFile (by decide) (by decide +kernel) heq
  rcases hr with hr | ⟨-, sp, ustack, hpassed⟩
  · omega
  · obtain rfl : r = 2 := htwo
    exact ⟨t, sp, ustack, ⟨vs, heq⟩, hpassed⟩

end Xv6.Exec
