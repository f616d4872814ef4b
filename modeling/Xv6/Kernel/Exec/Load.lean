import Xv6.Kernel.Exec.Code
import Xv6.Kernel.Vm.User

/-! # Loading a program

While `exec` builds the new address space, all of it is on pages that were free before the
call, and the process and the books of the file system stay as they are.
-/

namespace Xv6.Exec

open Lib Vm

/-- What `exec` has to leave as it was. -/
def Kern.books (k : Kern) : Proc × Int × Bool × Int := (k.proc, k.ref, k.locked, k.outstanding)

/-- The new address space at `pt`, of size `sz`, in the state `k`; it is made of pages that
were on the free list `L₀` of the state `k₀`. -/
structure Building (K : Image) (L₀ : List Nat) (k₀ : Kern) (pt sz : Nat) (us : List UserPage)
    (L : List Nat) (Q : Multiset Nat) (k : Kern) : Prop where
  space : Space K k.phys L pt us (upper K k₀.proc.trapframe) Q
  size : us.length = npages sz
  total : (L₀ : Multiset Nat) = ↑L + Q + pagesOf us
  agree : AgreeOff pgSize ↑L₀ k₀.phys.mem k.phys.mem
  books : k.books = k₀.books

def Accessible (us : List UserPage) : Prop := ∀ u ∈ us, u.flags &&& pteU ≠ 0

variable {K : Image} {L₀ L : List Nat} {k₀ k : Kern} {pt sz : Nat} {us : List UserPage}
  {Q : Multiset Nat} {f : File}

@[simp] theorem does_vm {α : Type} {m : Vm.Code α} {R : α → Kern → Prop} :
    Does (vm m) R k ↔ Does m (fun a t => R a { k with phys := t }) k.phys := Does.zoom

theorem readi_spec {off n : Nat} :
    Does (readi f off n) (fun r t => r ≤ n ∧ ∃ l, t = { k with faults := l }) k := by
  unfold readi
  refine Does.ite (fun _ => ?_) fun _ => ?_
  · rw [Does.pure]
    exact ⟨Nat.zero_le _, k.faults, rfl⟩
  · simp only [Does.bind, Does.get, Does.assign, Does.pure]
    refine ⟨?_, _, rfl⟩
    split <;> omega

theorem Building.faults {l : List Nat} (h : Building K L₀ k₀ pt sz us L Q k) :
    Building K L₀ k₀ pt sz us L Q { k with faults := l } :=
  ⟨h.space, h.size, h.total, h.agree, h.books⟩

theorem Building.users_free (h : Building K L₀ k₀ pt sz us L Q k) : pagesOf us ⊆ ↑L₀ := by
  rw [h.total]
  exact Multiset.subset_of_le (Multiset.le_add_left _ _)

theorem Building.write {t : Phys} (h : Building K L₀ k₀ pt sz us L Q k)
    (hspace : Space K t L pt us (upper K k₀.proc.trapframe) Q)
    (hm : AgreeOff pgSize (pagesOf us) k.phys.mem t.mem) :
    Building K L₀ k₀ pt sz us L Q { k with phys := t } :=
  ⟨hspace, h.size, h.total, h.agree.trans (hm.mono h.users_free), h.books⟩

theorem Building.splice {u : UserPage} {n : Nat} (h : Building K L₀ k₀ pt sz us L Q k)
    (hu : u ∈ us) (hn : n ≤ pgSize) (src : Bytes) : Building K L₀ k₀ pt sz us L Q
      { k with phys := { k.phys with mem := splice k.phys.mem u.pa n src } } := by
  have hagree : AgreeOff pgSize (pagesOf us) k.phys.mem (Lib.splice k.phys.mem u.pa n src) :=
    AgreeOff.splice (mem_pagesOf.mpr ⟨u, hu, rfl⟩) (Nat.le_refl _) (by omega)
  exact h.write (h.space.write rfl hagree) hagree

/-! ## Segments -/

theorem loadsegFrom_spec {va offset len fuel i : Nat} (h : Building K L₀ k₀ pt sz us L Q k)
    (hus : Accessible us) (hin : va + len ≤ us.length * pgSize)
    (hlen : len < 2 ^ 31) (hi : pgSize ∣ i) (hfuel : len + pgSize ≤ i + fuel * pgSize)
    (hlt : i < len + pgSize) :
    Does (loadsegFrom f pt va offset len fuel i) (fun _ => Building K L₀ k₀ pt sz us L Q) k := by
  induction fuel generalizing k i with
  | zero => omega
  | succ fuel ih =>
    rw [loadsegFrom]
    refine Does.ite (fun hlt' => ?_) fun _ => ?_
    · have hpage : (va + i) / pgSize < us.length :=
        Nat.div_lt_of_lt_mul (by rw [Nat.mul_comm]; omega)
      have hmod : (va + i) % 2 ^ 64 = va + i :=
        Nat.mod_eq_of_lt ((lt_maxVa (hpage.trans h.space.length_lt)).trans (by decide))
      rw [hmod, Does.bind, does_vm]
      refine (h.space.walkaddr (upper_kernel K _)).mono fun pa t hpa => ?_
      obtain ⟨rfl, ⟨-, hno⟩ | ⟨u, hu, -, rfl⟩⟩ := hpa
      · exact absurd (hno _ (List.getElem?_eq_getElem hpage)) (hus _ (List.getElem_mem hpage))
      · have hmem := List.mem_of_getElem? hu
        have hpos := (h.space.users u hmem).page.pos
        have hn : (if len - i < pgSize then len - i else pgSize) ≤ pgSize := by
          split <;> omega
        rw [if_neg (by omega), Does.bind]
        generalize (if len - i < pgSize then len - i else pgSize) = n at hn
        refine readi_spec.mono fun r w hr => ?_
        obtain ⟨hr, l, rfl⟩ := hr
        rw [Does.bind, does_vm, Does.assign]
        have hnext := fun src => (h.faults (l := l)).splice hmem (hr.trans hn) src
        refine Does.ite (fun _ => ?_) fun _ => ?_
        · rw [Does.pure]
          exact hnext _
        · rw [Nat.mod_eq_of_lt (by simp only [pgSize]; omega)]
          refine ih (hnext _) (Nat.dvd_add hi (Nat.dvd_refl _)) ?_ (by omega)
          rw [Nat.succ_mul] at hfuel
          omega
    · rw [Does.pure]
      exact h

/-- There is less memory than a signed counter can count. -/
theorem Building.bytes_lt (h : Building K L₀ k₀ pt sz us L Q k) : us.length * pgSize < 2 ^ 31 := by
  have := Nat.mul_le_mul_right pgSize (Nat.le_of_add_right_le h.space.room)
  have := nPages_lt K
  rw [Nat.mul_comm] at this
  omega

theorem loadseg_spec {va offset len : Nat} (h : Building K L₀ k₀ pt sz us L Q k)
    (hus : Accessible us) (hva : pgSize ∣ va) (hin : va + len ≤ us.length * pgSize) :
    Does (loadseg f pt va offset len) (fun _ => Building K L₀ k₀ pt sz us L Q) k := by
  have hsmall := h.bytes_lt
  apply loadsegFrom_spec h hus hin (by omega) (Nat.dvd_zero _)
  · simp only [pgSize] at *
    omega
  · simp only [pgSize]
    omega

/-! ## Growing -/

theorem Building.uvmalloc {newsz xperm : Nat} (h : Building K L₀ k₀ pt sz us L Q k)
    (hx : xperm < 2 ^ 10) :
    Does (vm (uvmalloc K pt sz newsz xperm)) (fun r t => (r ≠ 0 → newsz ≤ r) ∧
      ∃ new L' Q', Building K L₀ k₀ pt (if r = 0 then sz else r) (us ++ new) L' Q' t ∧
        ∀ u ∈ new, u.flags = allocFlags xperm) k := by
  rw [does_vm]
  refine (uvmalloc_spec h.space h.size hx).mono fun r t hr => ?_
  obtain ⟨hle, new, L', Q', hext⟩ := hr.extended h.space h.size
  refine ⟨hle, new, L', Q', ⟨hext.space, hext.size, ?_, h.agree.trans (hext.agree.mono ?_),
    h.books⟩, hext.flags⟩
  · rw [h.total, hext.total, pagesOf_append]
    abel
  · rw [h.total]
    exact Multiset.subset_of_le (Multiset.le_add_right _ _)

theorem flags2perm_lt (flags : Nat) : flags2perm flags < 2 ^ 10 := by
  unfold flags2perm
  split <;> split <;> decide

theorem allocFlags_user (xperm : Nat) : allocFlags xperm &&& pteU ≠ 0 := by
  have hbit : Nat.testBit (allocFlags xperm &&& pteU) 4 = true := by
    unfold allocFlags
    rw [Nat.testBit_and, Nat.testBit_or, Nat.testBit_or,
      show Nat.testBit (pteR ||| pteU) 4 = true by decide]
    rfl
  intro heq
  simp [heq] at hbit

def Loaded (K : Image) (L₀ : List Nat) (k₀ : Kern) (pt sz : Nat) (k : Kern) : Prop :=
  ∃ us L Q, Building K L₀ k₀ pt sz us L Q k ∧ Accessible us

/-- The state of an address space of which nothing but its size is known. -/
def Built (K : Image) (L₀ : List Nat) (k₀ : Kern) (pt sz : Nat) (k : Kern) : Prop :=
  ∃ us L Q, Building K L₀ k₀ pt sz us L Q k

theorem Loaded.built (h : Loaded K L₀ k₀ pt sz k) : Built K L₀ k₀ pt sz k := by
  obtain ⟨us, L, Q, h, -⟩ := h
  exact ⟨us, L, Q, h⟩

def LoadResult (K : Image) (L₀ : List Nat) (k₀ : Kern) (pt : Nat) :
    Except Nat Nat → Kern → Prop
  | .ok sz => Loaded K L₀ k₀ pt sz
  | .error sz => Built K L₀ k₀ pt sz

theorem loadPhdr_spec {ph : Proghdr} (h : Loaded K L₀ k₀ pt sz k) :
    Does (loadPhdr K f pt ph sz) (LoadResult K L₀ k₀ pt) k := by
  unfold loadPhdr
  refine Does.ite (fun _ => (Does.pure _).mpr h) fun _ => ?_
  refine Does.ite (fun _ => (Does.pure _).mpr h.built) fun hfile => ?_
  refine Does.ite (fun _ => (Does.pure _).mpr h.built) fun hwrap => ?_
  refine Does.ite (fun _ => (Does.pure _).mpr h.built) fun hal => ?_
  obtain ⟨us, L, Q, h, hus⟩ := h
  rw [Does.bind]
  refine (h.uvmalloc (flags2perm_lt _)).mono fun r t hr => ?_
  obtain ⟨hle, new, L', Q', hb, hnew⟩ := hr
  refine Does.ite (fun hr => (Does.pure _).mpr ?_) fun hr => ?_
  · rw [if_pos hr] at hb
    exact ⟨_, _, _, hb⟩
  · rw [if_neg hr] at hb
    have hle := hle hr
    rw [Does.bind]
    have hus' : Accessible (us ++ new) := by
      intro u hu
      rcases List.mem_append.mp hu with hu | hu
      · exact hus u hu
      · rw [hnew u hu]
        exact allocFlags_user _
    have hin : ph.vaddr + ph.filesz % 2 ^ 32 ≤ (us ++ new).length * pgSize := by
      have := ph.vaddr_lt
      have := ph.memsz_lt
      rw [hb.size, npages]
      simp only [pgSize]
      omega
    refine (loadseg_spec hb hus' (Nat.dvd_of_mod_eq_zero (by omega)) hin).mono fun _ w hw => ?_
    refine Does.ite (fun _ => (Does.pure _).mpr ?_) fun _ => (Does.pure _).mpr ?_
    · exact ⟨_, _, _, hw⟩
    · exact ⟨_, _, _, hw, hus'⟩

theorem loadPhdrs_spec {n off : Nat} (h : Loaded K L₀ k₀ pt sz k) :
    Does (loadPhdrs K f pt n off sz) (LoadResult K L₀ k₀ pt) k := by
  induction n generalizing k off sz with
  | zero =>
    rw [loadPhdrs, Does.pure]
    exact h
  | succ n ih =>
    rw [loadPhdrs, Does.bind]
    refine readi_spec.mono fun r t hr => ?_
    obtain ⟨-, l, rfl⟩ := hr
    have h' : Loaded K L₀ k₀ pt sz { k with faults := l } := by
      obtain ⟨us, L, Q, h, hus⟩ := h
      exact ⟨us, L, Q, h.faults, hus⟩
    refine Does.ite (fun _ => (Does.pure _).mpr h'.built) fun _ => ?_
    rw [Does.bind]
    refine (loadPhdr_spec h').mono fun r w hr => ?_
    cases r with
    | error sz => exact (Does.pure _).mpr hr
    | ok sz => exact ih hr

/-! ## The stack -/

theorem Built.copyout {va len : Nat} {src : Bytes} (h : Built K L₀ k₀ pt sz k) :
    Does (vm (copyout pt va src len)) (fun _ => Built K L₀ k₀ pt sz) k := by
  obtain ⟨us, L, Q, h⟩ := h
  rw [does_vm]
  refine (copyout_spec h.space (upper_kernel K _)).mono fun r t hr => ?_
  exact ⟨us, L, Q, h.write hr.2.1 hr.2.2⟩

theorem Built.uvmclear {va : Nat} (h : Built K L₀ k₀ pt sz k) (hva : va < sz) :
    Does (vm (uvmclear pt va)) (fun _ => Built K L₀ k₀ pt sz) k := by
  obtain ⟨us, L, Q, h⟩ := h
  have hv : va / pgSize < us.length := by
    rw [h.size, npages]
    simp only [pgSize]
    omega
  have hu := List.getElem?_eq_getElem hv
  rw [does_vm]
  refine (uvmclear_spec h.space hu).mono fun _ t ht => ?_
  refine ⟨_, L, Q, ht.1, ?_, ?_, h.agree.trans (ht.2.mono ?_), h.books⟩
  · rw [List.length_set]
    exact h.size
  · rw [pagesOf_set_guard hu]
    exact h.total
  · rw [h.total, add_right_comm]
    exact Multiset.subset_of_le (Multiset.le_add_left _ _)

def PushResult (K : Image) (L₀ : List Nat) (k₀ : Kern) (pt sz n : Nat)
    (r : Option (Nat × List Nat)) (k : Kern) : Prop :=
  Built K L₀ k₀ pt sz k ∧ ∀ p ∈ r, p.2.length = n

theorem Built.push_none {n : Nat} (h : Built K L₀ k₀ pt sz k) :
    PushResult K L₀ k₀ pt sz n none k := ⟨h, by simp⟩

theorem pushArgs_spec {stackbase sp : Nat} {argv : List (List UInt8)} {ustack : List Nat}
    (h : Built K L₀ k₀ pt sz k) :
    Does (pushArgs pt stackbase argv sp ustack)
      (PushResult K L₀ k₀ pt sz (ustack.length + argv.length)) k := by
  induction argv generalizing k sp ustack with
  | nil =>
    rw [pushArgs, Does.pure]
    exact ⟨h, by simp⟩
  | cons arg argv ih =>
    rw [pushArgs]
    refine Does.ite (fun _ => (Does.pure _).mpr h.push_none) fun _ => ?_
    refine Does.ite (fun _ => (Does.pure _).mpr h.push_none) fun _ => ?_
    rw [Does.bind]
    refine h.copyout.mono fun r t ht => ?_
    refine Does.ite (fun _ => (Does.pure _).mpr ht.push_none) fun _ => ?_
    refine (ih ht).mono fun r w hw => ⟨hw.1, fun p hp => ?_⟩
    rw [hw.2 p hp]
    simp
    omega

def StackResult (K : Image) (L₀ : List Nat) (k₀ : Kern) (pt : Nat) :
    Except Nat (Nat × Nat × Nat) → Kern → Prop
  | .ok (sz, _, _) => Built K L₀ k₀ pt sz
  | .error sz => Built K L₀ k₀ pt sz

theorem buildStack_spec {argv : List (List UInt8)} (h : Built K L₀ k₀ pt sz k)
    (hargv : argv.length < maxArg) :
    Does (buildStack K pt sz argv) (StackResult K L₀ k₀ pt) k := by
  obtain ⟨us, L, Q, h⟩ := h
  have hsmall := h.space.small h.size
  have hround : pgRoundUp sz = npages sz * pgSize := pgRoundUp_eq (by simp only [pgSize]; omega)
  have h' : Building K L₀ k₀ pt (pgRoundUp sz) us L Q k := by
    refine ⟨h.space, ?_, h.total, h.agree, h.books⟩
    rw [hround, npages_mul]
    exact h.size
  have hnewsz : (pgRoundUp sz + 2 * pgSize) % 2 ^ 64 = pgRoundUp sz + 2 * pgSize := by
    rw [hround, npages]
    simp only [pgSize]
    omega
  unfold buildStack
  dsimp only
  rw [hnewsz, Does.bind]
  refine (h'.uvmalloc (by decide)).mono fun r t hr => ?_
  obtain ⟨hle, new, L', Q', hb, -⟩ := hr
  refine Does.ite (fun hr => (Does.pure _).mpr ?_) fun hr => ?_
  · rw [if_pos hr] at hb
    exact ⟨_, _, _, hb⟩
  · rw [if_neg hr] at hb
    have hle := hle hr
    rw [Does.bind]
    have hclear : sub64 r (2 * pgSize) < r := by
      have := hb.space.small hb.size
      simp only [sub64, pgSize] at *
      omega
    have hbuilt : Built K L₀ k₀ pt r t := ⟨_, _, _, hb⟩
    refine (hbuilt.uvmclear hclear).mono fun _ u hu => ?_
    rw [Does.bind]
    refine (pushArgs_spec hu).mono fun r' w hw => ?_
    cases r' with
    | none => exact (Does.pure _).mpr hw.1
    | some p =>
      have hlen := hw.2 p rfl
      have hlt : ¬ maxArg ≤ p.2.length := by simpa [hlen] using hargv
      dsimp only
      rw [if_neg hlt]
      refine Does.ite (fun _ => (Does.pure _).mpr hw.1) fun _ => ?_
      rw [Does.bind]
      refine hw.1.copyout.mono fun r'' x hx => ?_
      exact Does.ite (fun _ => (Does.pure _).mpr hx) fun _ => (Does.pure _).mpr hx

end Xv6.Exec
