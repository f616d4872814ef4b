import Xv6.Kernel.Vm.Kalloc
import Xv6.Lib.Run

/-! # The walk of `get_freemem`

`get_freemem` walks the free list without `kmem.lock`, while other CPUs allocate and
free pages. A page it stands on is taken only when it is the first of the list; as long
as that does not happen, the rest of the list is what it was at the call.
-/

namespace Xv6.Vm

open Lib

/-- The loop of `get_freemem`: the variables `p` and `freemem`. -/
inductive Walk where
  | idle
  | loop (p : Nat) (freemem : BitVec 32)
  | done (freemem : BitVec 32)
deriving DecidableEq

structure Sys where
  phys : Phys
  -- The pages that callers of `kalloc` have.
  out : List Nat
  walk : Walk

inductive Ev where
  | kalloc
  | kfree (pa : Nat)
  -- The call, an iteration, or the return of `get_freemem`.
  | walk
deriving DecidableEq

def Walk.step (s : Phys) : Walk → Option Walk
  | .idle => some (.loop s.freelist 0)
  | .loop p freemem =>
      if p ≠ 0 then some (.loop (getLE s.mem p 8) (freemem + BitVec.ofNat 32 pgSize))
      else some (.done freemem)
  | .done _ => none

def Sys.step (K : Image) (s : Sys) : Ev → Option Sys
  | .kalloc =>
      match kalloc s.phys with
      | ⟨.ok r, t, _⟩ => some { s with phys := t, out := if r = 0 then s.out else r :: s.out }
      | ⟨.error _, _, _⟩ => none
  | .kfree pa =>
      -- only a page that was handed out is freed, and once
      if pa ∈ s.out then
        match kfree K pa s.phys with
        | ⟨.ok _, t, _⟩ => some { s with phys := t, out := s.out.erase pa }
        | ⟨.error _, _, _⟩ => none
      else none
  | .walk => (s.walk.step s.phys).map fun w => { s with walk := w }

def Sys.boot (K : Image) (mem : Bytes) : Sys := ⟨(kinit K ⟨mem, 0⟩).final, [], .idle⟩

/-- `kalloc` does not take the page that the walk stands on. -/
def Undisturbed (s : Sys) (e : Ev) : Prop :=
  e = .kalloc → ∀ p freemem, s.walk = .loop p freemem → p ≠ 0 → s.phys.freelist ≠ p

variable {K : Image} {s t : Sys} {e : Ev} {L : List Nat}

/-! ## The free list in a run -/

/-- The pages on the list and those handed out are different. -/
structure Sys.Ok (K : Image) (s : Sys) (L : List Nat) : Prop where
  free : FreeList K s.phys L
  pages : ∀ p ∈ s.out, IsPage K p
  nodup : (s.out ++ L).Nodup

/-- What a step does to the free list: nothing, or one page goes or comes at its head. -/
inductive Moves (K : Image) (s : Sys) (L : List Nat) : Ev → Sys → List Nat → Prop where
  | empty : L = [] → Moves K s L .kalloc s L
  | kalloc {p : Nat} {L' : List Nat} {u : Phys} : L = p :: L' → Took K p L' s.phys u →
      Moves K s L .kalloc { s with phys := u, out := p :: s.out } L'
  | kfree {p : Nat} {u : Phys} : p ∈ s.out → FreeList K u (p :: L) →
      AgreeOff pgSize {p} s.phys.mem u.mem →
      Moves K s L (.kfree p) { s with phys := u, out := s.out.erase p } (p :: L)
  | walk {w : Walk} : s.walk.step s.phys = some w → Moves K s L .walk { s with walk := w } L

theorem Sys.Ok.not_free (h : s.Ok K L) {p : Nat} (hp : p ∈ s.out) : p ∉ L :=
  fun hL => (List.nodup_append.mp h.nodup).2.2 p hp p hL rfl

theorem Sys.Ok.step (h : s.Ok K L) (hst : s.step K e = some t) : ∃ L', Moves K s L e t L' := by
  cases e with
  | kalloc =>
    obtain ⟨r, u, vs, hk, hr⟩ := (kalloc_spec h.free).result
    simp only [Sys.step, hk, Option.some.injEq] at hst
    subst hst
    rcases hr with ⟨hL, rfl, rfl⟩ | ⟨L', hL, htook⟩
    · exact ⟨L, .empty hL⟩
    · rw [if_neg (Nat.pos_iff_ne_zero.mp htook.page.pos)]
      exact ⟨L', .kalloc hL htook⟩
  | kfree p =>
    simp only [Sys.step, Option.ite_none_right_eq_some] at hst
    obtain ⟨hp, hst⟩ := hst
    obtain ⟨_, u, vs, hk, hfree, hagree⟩ :=
      (kfree_spec h.free (h.pages p hp) (h.not_free hp)).result
    simp only [hk, Option.some.injEq] at hst
    exact ⟨p :: L, hst ▸ .kfree hp hfree hagree⟩
  | walk =>
    simp only [Sys.step, Option.map_eq_some_iff] at hst
    obtain ⟨w, hw, rfl⟩ := hst
    exact ⟨L, .walk hw⟩

theorem Moves.ok {L' : List Nat} (h : s.Ok K L) (hm : Moves K s L e t L') : t.Ok K L' := by
  cases hm with
  | empty _ => exact h
  | @kalloc p L' u hL htook =>
    subst hL
    refine ⟨htook.free, ?_, ?_⟩
    · intro q hq
      rcases List.mem_cons.mp hq with rfl | hq
      · exact htook.page
      · exact h.pages q hq
    · exact (List.perm_middle.nodup_iff).mp h.nodup
  | @kfree p u hp hfree hagree =>
    refine ⟨hfree, fun q hq => h.pages q (List.mem_of_mem_erase hq), ?_⟩
    have hperm : List.Perm (s.out.erase p ++ p :: L) (s.out ++ L) :=
      List.perm_middle.trans ((List.perm_cons_erase hp).symm.append_right L)
    exact hperm.nodup_iff.mpr h.nodup
  | walk _ => exact ⟨h.free, h.pages, h.nodup⟩

theorem Sys.boot_ok (K : Image) (mem : Bytes) : (Sys.boot K mem).Ok K (allPages K).reverse := by
  obtain ⟨_, u, vs, hk, hfree⟩ := (kinit_spec (K := K) (s := ⟨mem, 0⟩) rfl).result
  refine ⟨?_, fun p hp => (List.not_mem_nil hp).elim, ?_⟩
  · simpa only [Sys.boot, hk] using hfree
  · simpa [Sys.boot] using allPages_nodup K

/-! ## The walk -/

/-- The loop has done `n` iterations, and from its page on the list has the rest of the `len`
pages that it had at the call. -/
structure Stands (m : Bytes) (L : List Nat) (len n p : Nat) (freemem : BitVec 32) : Prop where
  rest : ∃ done rest, L = done ++ rest ∧ Chain m p rest ∧ n + rest.length = len
  freemem : freemem = BitVec.ofNat 32 (pgSize * n)

/-- The walk after `n` of its steps. -/
def Walk.Ok (m : Bytes) (L : List Nat) (len n : Nat) : Walk → Prop
  | .idle => False
  | .loop p freemem => Stands m L len n p freemem
  | .done freemem => freemem = BitVec.ofNat 32 (pgSize * len) ∧ n = len + 1

theorem Stands.iterate {m : Bytes} {len n p : Nat} {freemem : BitVec 32}
    (h : Stands m L len n p freemem) (hp : p ≠ 0) :
    Stands m L len (n + 1) (getLE m p 8) (freemem + BitVec.ofNat 32 pgSize) := by
  obtain ⟨⟨front, rest, hL, hc, hlen⟩, hfree⟩ := h
  cases rest with
  | nil => exact absurd hc hp
  | cons q rest =>
    obtain ⟨rfl, hc⟩ := hc
    refine ⟨⟨front ++ [p], rest, by simp [hL], hc, ?_⟩, ?_⟩
    · rw [← hlen, List.length_cons]
      omega
    · rw [hfree, Nat.mul_succ, BitVec.ofNat_add]

theorem Stands.finish {m : Bytes} {len n : Nat} {freemem : BitVec 32}
    (h : Stands m L len n 0 freemem) (hL : ∀ p ∈ L, p ≠ 0) :
    n = len ∧ freemem = BitVec.ofNat 32 (pgSize * len) := by
  obtain ⟨⟨front, rest, rfl, hc, hlen⟩, hfree⟩ := h
  cases rest with
  | nil => exact ⟨by simpa using hlen, by rw [hfree]; simp [← hlen]⟩
  | cons q rest => exact absurd hc.1.symm (hL q (by simp))

/-- A page comes or goes at the head while the walk is behind it. -/
theorem Stands.frame {m m' : Bytes} {L' : List Nat} {len n p q : Nat} {freemem : BitVec 32}
    (h : Stands m L len n p freemem) (hm : AgreeOff pgSize {q} m m') (hq : pgSize ∣ q)
    (hL : ∀ r ∈ L, pgSize ∣ r)
    (hrest : ∀ front rest, L = front ++ rest → Chain m p rest →
      q ∉ rest ∧ ∃ front', L' = front' ++ rest) : Stands m' L' len n p freemem := by
  obtain ⟨⟨front, rest, hsplit, hc, hlen⟩, hfree⟩ := h
  obtain ⟨hqr, front', hL'⟩ := hrest front rest hsplit hc
  refine ⟨⟨front', rest, hL', hc.congr fun r hr => ?_, hlen⟩, hfree⟩
  apply AgreeOff.word hm (by simpa using hq)
  · exact hL r (by simp [hsplit, hr])
  · intro hrq
    exact hqr (Multiset.mem_singleton.mp hrq ▸ hr)

theorem Moves.walk_ok {L' : List Nat} {len n : Nat} (h : s.Ok K L)
    (hw : s.walk.Ok s.phys.mem L len n) (hok : Undisturbed s e) (hm : Moves K s L e t L') :
    t.walk.Ok t.phys.mem L' len (n + if e = .walk then 1 else 0) := by
  have hdvd : ∀ r ∈ L, pgSize ∣ r := fun r hr => (h.free.pages r hr).aligned
  cases hm with
  | empty _ => exact hw
  | @kalloc p L' u hL htook =>
    cases hwalk : s.walk with
    | idle => simp [hwalk, Walk.Ok] at hw
    | done f => simpa [hwalk, Walk.Ok] using hw
    | loop q f =>
      simp only [hwalk, Walk.Ok] at hw ⊢
      refine hw.frame htook.agree htook.page.aligned hdvd fun front rest hsplit hc => ?_
      subst hL
      cases front with
      | nil =>
        -- the walk would stand on the head
        rw [List.nil_append] at hsplit
        rw [← hsplit] at hc
        have hq : q ≠ 0 := hc.1 ▸ Nat.pos_iff_ne_zero.mp htook.page.pos
        exact absurd (h.free.of_cons.1.trans hc.1.symm) (hok rfl q f hwalk hq)
      | cons x front =>
        rw [List.cons_append, List.cons.injEq] at hsplit
        refine ⟨fun hp => htook.fresh ?_, front, hsplit.2⟩
        rw [hsplit.2]
        exact List.mem_append_right front hp
  | @kfree p u hp hfree hagree =>
    cases hwalk : s.walk with
    | idle => simp [hwalk, Walk.Ok] at hw
    | done f => simpa [hwalk, Walk.Ok] using hw
    | loop q f =>
      simp only [hwalk, Walk.Ok] at hw ⊢
      refine hw.frame hagree (h.pages p hp).aligned hdvd fun front rest hsplit hc => ?_
      refine ⟨fun hr => h.not_free hp ?_, p :: front, by rw [hsplit, List.cons_append]⟩
      rw [hsplit]
      exact List.mem_append_right front hr
  | @walk w hstep =>
    cases hwalk : s.walk with
    | idle => simp [hwalk, Walk.Ok] at hw
    | done f => simp [hwalk, Walk.step] at hstep
    | loop q f =>
      simp only [hwalk, Walk.Ok] at hw
      simp only [hwalk, Walk.step] at hstep
      split at hstep
      · rename_i hq
        rw [Option.some.injEq] at hstep
        subst hstep
        exact hw.iterate hq
      · rename_i hq
        rw [Option.some.injEq] at hstep
        subst hstep
        rw [not_not] at hq
        subst hq
        obtain ⟨rfl, hf⟩ := hw.finish fun r hr => Nat.pos_iff_ne_zero.mp (h.free.pages r hr).pos
        exact ⟨hf, rfl⟩

def Sys.call (s : Sys) : Sys := { s with walk := .loop s.phys.freelist 0 }

theorem Run.walk_ok {evs : List Ev} (h : s.Ok K L)
    (hr : Run (Sys.step K) Undisturbed s.call evs t) :
    ∃ L', t.Ok K L' ∧ t.walk.Ok t.phys.mem L' L.length (evs.count .walk) := by
  induction hr with
  | nil =>
    refine ⟨L, ⟨h.free, h.pages, h.nodup⟩, ⟨[], L, rfl, h.free.chain, ?_⟩, ?_⟩
    · simp
    · simp
  | @snoc evs t u e _ hok hst ih =>
    obtain ⟨L', hs, hw⟩ := ih
    obtain ⟨L'', hm⟩ := hs.step hst
    refine ⟨L'', hm.ok hs, ?_⟩
    have hcount : (evs ++ [e]).count .walk = evs.count .walk + if e = .walk then 1 else 0 := by
      rw [List.count_append, List.count_singleton]
      cases e <;> rfl
    rw [hcount]
    exact hm.walk_ok hs hw hok

theorem Run.boot_ok {mem : Bytes} {evs : List Ev}
    (hr : Run (Sys.step K) (fun _ _ => True) (Sys.boot K mem) evs s) : ∃ L, s.Ok K L := by
  refine hr.invariant (P := fun s => ∃ L, s.Ok K L) ⟨_, Sys.boot_ok K mem⟩ ?_
  intro t e u hs _ hst
  obtain ⟨L, hs⟩ := hs
  obtain ⟨L', hm⟩ := hs.step hst
  exact ⟨L', hm.ok hs⟩

/-- In every run in which no `kalloc` takes the page that the walk stands on: what the walk
dereferences is a page of the allocator, the walk ends after as many iterations as the free list
had pages at the call, and it returns `PGSIZE` times their number. -/
theorem get_freemem_sound {mem : Bytes} {before after : List Ev}
    (hb : Run (Sys.step K) (fun _ _ => True) (Sys.boot K mem) before s)
    (hr : Run (Sys.step K) Undisturbed s.call after t) :
    ∃ L, FreeList K s.phys L ∧
      (∀ p freemem, t.walk = .loop p freemem →
        (p = 0 ∨ IsPage K p) ∧ after.count .walk ≤ L.length) ∧
      t.walk ≠ .idle ∧
      ∀ freemem, t.walk = .done freemem →
        freemem.toInt = (pgSize * L.length : Nat) ∧ after.count .walk = L.length + 1 := by
  obtain ⟨L, hs⟩ := Run.boot_ok hb
  obtain ⟨L', ht, hw⟩ := Run.walk_ok hs hr
  refine ⟨L, hs.free, fun p f hwalk => ?_, fun hwalk => ?_, fun f hwalk => ?_⟩
  · rw [hwalk] at hw
    obtain ⟨⟨front, rest, hL, hc, hlen⟩, -⟩ := hw
    refine ⟨?_, by omega⟩
    cases rest with
    | nil => exact .inl hc
    | cons q rest =>
      right
      rw [hc.1]
      exact ht.free.pages q (by simp [hL])
  · simp [hwalk, Walk.Ok] at hw
  · rw [hwalk] at hw
    refine ⟨?_, hw.2⟩
    have hle : pgSize * L.length < 2 ^ 31 :=
      Nat.lt_of_le_of_lt (Nat.mul_le_mul_left _ hs.free.length_le) (nPages_lt K)
    rw [hw.1, BitVec.toInt_eq_toNat_of_lt] <;>
      rw [BitVec.toNat_ofNat, Nat.mod_eq_of_lt (by omega)]
    omega

/-- A kernel that leaves two pages to the allocator. -/
def twoPages : Image where
  kend := physTop - 2 * pgSize
  trampoline := kernBase
  trampoline_aligned := kernBase_aligned
  trampoline_pos := Nat.le_refl _
  trampoline_below := by decide
  kend_le := by decide

def undisturbed (s : Sys) : Ev → Bool
  | .kalloc =>
    match s.walk with
    | .loop p _ => p == 0 || s.phys.freelist != p
    | _ => true
  | _ => true

theorem undisturbed_ok (s : Sys) (e : Ev) (h : undisturbed s e = true) : Undisturbed s e := by
  rintro rfl p f hwalk hp hlist
  simp [undisturbed, hwalk, hlist, hp] at h

/-- A page is taken that the walk has passed; it counts both. -/
theorem get_freemem_sound_behind :
    ∃ t, Run (Sys.step twoPages) Undisturbed (Sys.boot twoPages fun _ => 0).call
        [.walk, .kalloc, .walk, .walk] t ∧
      ∃ freemem L, FreeList twoPages (Sys.boot twoPages fun _ => 0).phys L ∧
        t.walk = .done freemem ∧ freemem.toInt = (pgSize * L.length : Nat) := by
  have hwalk : (runTest (Sys.step twoPages) undisturbed (Sys.boot twoPages fun _ => 0).call
      [.walk, .kalloc, .walk, .walk]).map Sys.walk = some (.done 8192) := by
    decide +kernel
  obtain ⟨t, ht, hwalk⟩ := Option.map_eq_some_iff.mp hwalk
  have hr := Run.of_runTest undisturbed_ok ht
  obtain ⟨L, hL, -, -, hdone⟩ := get_freemem_sound Run.nil hr
  exact ⟨t, hr, 8192, L, hL, hwalk, (hdone 8192 hwalk).1⟩

/-- A page is taken while the walk stands on it: the next pointer is what `kalloc` filled the
page with. -/
theorem get_freemem_junk :
    ∃ t, Run (Sys.step twoPages) (fun _ _ => True) (Sys.boot twoPages fun _ => 0).call
        [.kalloc, .walk] t ∧
      t.walk = .loop 0x0505050505050505 4096 ∧ ¬ IsPage twoPages 0x0505050505050505 := by
  have hwalk : (runTest (Sys.step twoPages) (fun _ _ => true)
      (Sys.boot twoPages fun _ => 0).call [.kalloc, .walk]).map Sys.walk =
      some (.loop 0x0505050505050505 4096) := by
    decide +kernel
  obtain ⟨t, ht, hwalk⟩ := Option.map_eq_some_iff.mp hwalk
  refine ⟨t, Run.of_runTest (fun _ _ _ => trivial) ht, hwalk, fun h => ?_⟩
  exact absurd h.high (by decide)

end Xv6.Vm
