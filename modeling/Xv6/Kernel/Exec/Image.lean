import Xv6.Kernel.Vm.UserBytes

/-! # The image that `exec` loads

User memory below the stack is what the program headers describe, as long as the offsets fit
into 32 bits: `exec` keeps the offset of the table in an `int` and `loadseg` takes the offset of
a segment as a `uint`.
-/

namespace Xv6.Exec

open Lib Vm

/-! ## What the headers describe -/

def phdrs (f : File) : Nat → Nat → List Proghdr
  | 0, _ => []
  | n + 1, off => Proghdr.read f.data off :: phdrs f n (off + sizeofProghdr)

def loads (phs : List Proghdr) : List Proghdr := phs.filter fun ph => ph.type = 1

def File.elf (f : File) : Elfhdr := Elfhdr.read f.data 0

def File.segments (f : File) : List Proghdr := loads (phdrs f f.elf.phnum f.elf.phoff)

def putSegment (f : File) (m : Bytes) (ph : Proghdr) : Bytes :=
  splice m ph.vaddr ph.filesz fun j => f.data (ph.off + j)

/-- All segments are copied, one after the other, to memory that is zero. -/
def File.image (f : File) : Bytes := f.segments.foldl (putSegment f) fun _ => 0

/-- Where the guard page of a process starts; the stack is the page after it. -/
def Kern.guard (k : Kern) : Nat := k.proc.sz - 2 * pgSize

/-- User memory below the guard page is the image of the file. -/
structure ImageLoaded (f : File) (us : List UserPage) (t : Kern) : Prop where
  table : f.elf.phnum = 0 ∨ f.elf.phoff + f.elf.phnum * sizeofProghdr ≤ f.size
  inside : ∀ ph ∈ f.segments, ph.filesz = 0 ∨ ph.off + ph.filesz ≤ f.size
  below : ∀ ph ∈ f.segments, ph.vaddr + ph.memsz ≤ t.guard
  bytes : ∀ a < t.guard, userByte us t.phys.mem a = some (f.image a)

/-- The offsets that are used fit into 32 bits. -/
def File.Narrow (f : File) : Prop :=
  (f.elf.phnum = 0 ∨ f.elf.phoff < 2 ^ 32) ∧ ∀ ph ∈ f.segments, ph.filesz = 0 ∨ ph.off < 2 ^ 32

/-- A header as `loadseg` gets it. -/
def Proghdr.cut (ph : Proghdr) : Proghdr := { ph with off := ph.off % 2 ^ 32 }

def File.found (f : File) : List Proghdr := loads (phdrs f f.elf.phnum (f.elf.phoff % 2 ^ 32))

def File.foundImage (f : File) : Bytes :=
  f.found.foldl (fun m ph => putSegment f m ph.cut) fun _ => 0

/-- A segment is in the file and below the size, as far as `exec` can tell. -/
structure Fits (f : File) (sz : Nat) (ph : Proghdr) : Prop where
  below : ph.vaddr + ph.memsz ≤ sz
  inside : ph.filesz = 0 ∨ ph.off % 2 ^ 32 + ph.filesz ≤ f.size

/-- The address space shows `img` to the user. -/
structure Pictured (K : Image) (L₀ : List Nat) (k₀ : Kern) (pt sz : Nat) (us : List UserPage)
    (L : List Nat) (Q : Multiset Nat) (img : Bytes) (k : Kern) : Prop where
  building : Building K L₀ k₀ pt sz us L Q k
  access : Accessible us
  shows : ∀ a < us.length * pgSize, userByte us k.phys.mem a = some (img a)
  zero : ∀ a, us.length * pgSize ≤ a → img a = 0

section

variable {K : Image} {L₀ L : List Nat} {k₀ k : Kern} {pt sz : Nat} {us : List UserPage}
  {Q : Multiset Nat} {f : File} {img : Bytes}

/-! ## Reading -/

/-- A full count means that the bytes are in the file. -/
theorem readi_full {off n : Nat} (hn : 0 < n) :
    Does (readi f off n) (fun r _ => r = n → off + n ≤ f.size) k := by
  unfold readi
  refine Does.ite (fun _ => ?_) fun hoff => ?_
  · rw [Does.pure]
    omega
  · simp only [Does.bind, Does.get, Does.assign, Does.pure]
    split <;> omega

theorem Pictured.faults {l : List Nat} (h : Pictured K L₀ k₀ pt sz us L Q img k) :
    Pictured K L₀ k₀ pt sz us L Q img { k with faults := l } :=
  ⟨h.building.faults, h.access, h.shows, h.zero⟩

theorem Pictured.splice {u : UserPage} {v n : Nat} (h : Pictured K L₀ k₀ pt sz us L Q img k)
    (hu : us[v]? = some u) (hn : n ≤ pgSize) (src : Bytes) :
    Pictured K L₀ k₀ pt sz us L Q (splice img (v * pgSize) n src)
      { k with phys := { k.phys with mem := splice k.phys.mem u.pa n src } } := by
  have hmem := List.mem_of_getElem? hu
  have hover := h.building.space.overlaid_page (upper_kernel K _) hu (h.access u hmem) hn
    k.phys.mem src
  obtain ⟨hv, -⟩ := List.getElem?_eq_some_iff.mp hu
  have hend : v * pgSize + n ≤ us.length * pgSize := by
    have := Nat.mul_le_mul_right pgSize (Nat.succ_le_of_lt hv)
    rw [Nat.succ_mul] at this
    omega
  refine ⟨h.building.splice hmem hn src, h.access, fun a ha => ?_, fun a ha => ?_⟩
  · rw [hover a, Lib.splice]
    split
    · rfl
    · exact h.shows a ha
  · rw [splice_outside (by omega)]
    exact h.zero a ha

/-! ## Segments -/

theorem loadsegFrom_image {v offset len fuel i : Nat} (h : Pictured K L₀ k₀ pt sz us L Q img k)
    (hin : v * pgSize + len ≤ us.length * pgSize) (hlen : len < 2 ^ 31) (hi : pgSize ∣ i)
    (hoff : i < len → offset + i < 2 ^ 32) (hfuel : len + pgSize ≤ i + fuel * pgSize)
    (hlt : i < len + pgSize) :
    Does (loadsegFrom f pt (v * pgSize) offset len fuel i) (fun r t => ¬ r < 0 →
      (len ≤ i ∨ offset + len ≤ f.size) ∧
      Pictured K L₀ k₀ pt sz us L Q
        (Lib.splice img (v * pgSize + i) (len - i) fun j => f.data (offset + i + j)) t) k := by
  induction fuel generalizing k i img with
  | zero => omega
  | succ fuel ih =>
    rw [loadsegFrom]
    refine Does.ite (fun hlt' => ?_) fun hge => ?_
    · obtain ⟨c, rfl⟩ := hi
      have haddr : v * pgSize + pgSize * c = (v + c) * pgSize := by
        rw [Nat.add_mul, Nat.mul_comm c]
      have hdiv : (v + c) * pgSize / pgSize = v + c := Nat.mul_div_cancel _ (by decide)
      have hpage : v + c < us.length := by
        refine Nat.lt_of_mul_lt_mul_right (a := pgSize) ?_
        omega
      have hmod : (v * pgSize + pgSize * c) % 2 ^ 64 = (v + c) * pgSize := by
        rw [haddr]
        refine Nat.mod_eq_of_lt ((lt_maxVa ?_).trans (by decide))
        rw [hdiv]
        exact hpage.trans h.building.space.length_lt
      rw [hmod, Does.bind, does_vm]
      refine (h.building.space.walkaddr (upper_kernel K _)).mono fun pa t hpa => ?_
      rw [hdiv] at hpa
      obtain ⟨rfl, ⟨-, hno⟩ | ⟨u, hu, -, rfl⟩⟩ := hpa
      · exact absurd (hno _ (List.getElem?_eq_getElem hpage)) (h.access _ (List.getElem_mem hpage))
      · have hpos := (h.building.space.users u (List.mem_of_getElem? hu)).page.pos
        have hn : (if len - pgSize * c < pgSize then len - pgSize * c else pgSize) =
            min pgSize (len - pgSize * c) := by
          split <;> omega
        have hnpos : 0 < min pgSize (len - pgSize * c) := by
          simp only [pgSize] at *
          omega
        rw [if_neg (by omega), Does.bind, hn, Nat.mod_eq_of_lt (hoff hlt')]
        refine (readi_spec.and (readi_full hnpos)).mono fun r w hr => ?_
        obtain ⟨⟨hr, l, rfl⟩, hfull⟩ := hr
        rw [Does.bind, does_vm, Does.assign]
        refine Does.ite (fun _ => ?_) fun heq => ?_
        · rw [Does.pure]
          omega
        · obtain rfl : r = min pgSize (len - pgSize * c) := by omega
          have hfull := hfull rfl
          have hnext := (h.faults (l := l)).splice hu (Nat.min_le_left pgSize (len - pgSize * c))
            fun j => f.data (offset + pgSize * c + j)
          rw [Nat.mod_eq_of_lt (by simp only [pgSize] at *; omega)]
          have hsucc : pgSize * c + pgSize = pgSize * (c + 1) := rfl
          refine (ih hnext ⟨c + 1, rfl⟩ ?_ ?_ (by omega)).mono fun r' x hx hr' => ?_
          · have := f.size_lt
            omega
          · rw [Nat.succ_mul] at hfuel
            omega
          · obtain ⟨hinside, hpic⟩ := hx hr'
            rw [← hsucc] at hinside hpic
            rw [haddr]
            rcases Nat.lt_or_ge (len - pgSize * c) pgSize with hlast | hmore
            · rw [show len - (pgSize * c + pgSize) = 0 by omega, splice_zero,
                Nat.min_eq_right (by omega)] at hpic
              refine ⟨.inr ?_, hpic⟩
              omega
            · rw [Nat.min_eq_left hmore] at hpic hfull
              have hjoin := splice_splice img (fun j => f.data (offset + pgSize * c + j))
                ((v + c) * pgSize) pgSize (len - (pgSize * c + pgSize))
              simp only [← Nat.add_assoc] at hjoin hpic
              rw [haddr, hjoin, show pgSize + (len - (pgSize * c + pgSize)) = len - pgSize * c by
                omega] at hpic
              refine ⟨.inr ?_, hpic⟩
              omega
    · rw [Does.pure]
      intro _
      rw [show len - i = 0 by omega, splice_zero]
      exact ⟨.inl (by omega), h⟩

theorem loadseg_image {va offset len : Nat} (h : Pictured K L₀ k₀ pt sz us L Q img k)
    (hva : pgSize ∣ va) (hin : va + len ≤ us.length * pgSize) (hoff : offset < 2 ^ 32) :
    Does (loadseg f pt va offset len) (fun r t => ¬ r < 0 →
      (len = 0 ∨ offset + len ≤ f.size) ∧
      Pictured K L₀ k₀ pt sz us L Q (Lib.splice img va len fun j => f.data (offset + j)) t) k := by
  obtain ⟨v, rfl⟩ := hva
  have hsmall := h.building.bytes_lt
  rw [Nat.mul_comm pgSize v] at hin ⊢
  refine (loadsegFrom_image h hin (by omega) (Nat.dvd_zero _) (fun _ => hoff) ?_ ?_).mono
    fun r t hr hpos => ?_
  · simp only [pgSize] at *
    omega
  · simp only [pgSize]
    omega
  · simpa using hr hpos

/-! ## Headers -/

/-- User memory has grown: the new pages are zero, as the image is beyond its end. -/
theorem Pictured.grown {L' : List Nat} {Q' : Multiset Nat} {xperm sz' : Nat} {new : List UserPage}
    {t : Phys} (h : Pictured K L₀ k₀ pt sz us L Q img k)
    (hg : Grown K L pt us (upper K k₀.proc.trapframe) Q xperm new k.phys L' Q' t)
    (hlen : us.length + new.length = npages sz') :
    Pictured K L₀ k₀ pt sz' (us ++ new) L' Q' img { k with phys := t } := by
  have htotal : (L₀ : Multiset Nat) = ↑L' + Q' + pagesOf (us ++ new) := by
    rw [h.building.total, hg.total, pagesOf_append]
    abel
  have hsub : (↑L + Q : Multiset Nat) ⊆ ↑L₀ := by
    rw [h.building.total]
    exact Multiset.subset_of_le (Multiset.le_add_right _ _)
  have hle : us.length * pgSize ≤ (us ++ new).length * pgSize :=
    Nat.mul_le_mul_right _ (by simp)
  refine ⟨⟨hg.space, by rw [List.length_append, hlen], htotal,
    h.building.agree.trans (hg.agree.mono hsub), h.building.books⟩, ?_, fun a ha => ?_,
    fun a ha => h.zero a (by omega)⟩
  · intro u hu
    rcases List.mem_append.mp hu with hu | hu
    · exact h.access u hu
    · rw [hg.flags u hu]
      exact allocFlags_user _
  · have hdiv := Nat.div_lt_of_lt_mul (Nat.mul_comm _ pgSize ▸ ha)
    by_cases hold : a / pgSize < us.length
    · rw [hg.old_byte h.building.space hold]
      exact h.shows a (Nat.lt_mul_of_div_lt hold (by decide))
    · have hge : us.length * pgSize ≤ a := by
        have := Nat.mul_le_of_le_div pgSize us.length a (by omega)
        omega
      rw [hg.new_byte (by omega) hdiv, h.zero a hge]

theorem Pictured.uvmalloc {newsz xperm : Nat} (h : Pictured K L₀ k₀ pt sz us L Q img k)
    (hx : xperm < 2 ^ 10) :
    Does (vm (uvmalloc K pt sz newsz xperm)) (fun r t => r ≠ 0 → r = max sz newsz ∧
      ∃ new L' Q', Pictured K L₀ k₀ pt r (us ++ new) L' Q' img t) k := by
  rw [does_vm]
  refine (uvmalloc_spec h.building.space h.building.size hx).mono fun r t hr hne => ?_
  cases hr with
  | less hlt hr ht =>
    subst hr ht
    refine ⟨by omega, [], L, Q, ?_⟩
    rw [List.append_nil]
    exact h
  | @grown L' Q' new hle hr hnew hg =>
    subst hr
    exact ⟨by omega, new, L', Q', h.grown hg hnew⟩
  | failed _ hr _ => exact absurd hr hne

theorem loadPhdr_image {ph : Proghdr} (h : Pictured K L₀ k₀ pt sz us L Q img k)
    (hph : ph.type = 1) :
    Does (loadPhdr K f pt ph sz) (fun r t => ∀ sz', r = .ok sz' → sz ≤ sz' ∧ Fits f sz' ph ∧
      ∃ us' L' Q', Pictured K L₀ k₀ pt sz' us' L' Q' (putSegment f img ph.cut) t) k := by
  unfold loadPhdr
  rw [if_neg (by simp [hph])]
  refine Does.ite (fun _ => (Does.pure _).mpr (by simp)) fun hfile => ?_
  refine Does.ite (fun _ => (Does.pure _).mpr (by simp)) fun hwrap => ?_
  refine Does.ite (fun _ => (Does.pure _).mpr (by simp)) fun hal => ?_
  have hsum : (ph.vaddr + ph.memsz) % 2 ^ 64 = ph.vaddr + ph.memsz := by
    have := ph.vaddr_lt
    have := ph.memsz_lt
    omega
  rw [hsum, Does.bind]
  refine (h.uvmalloc (flags2perm_lt _)).mono fun r t hr => ?_
  refine Does.ite (fun _ => (Does.pure _).mpr (by simp)) fun hne => ?_
  obtain ⟨hmax, new, L', Q', hpic⟩ := hr hne
  have hsmall := hpic.building.bytes_lt
  have hend : r ≤ (us ++ new).length * pgSize := by
    rw [hpic.building.size, npages]
    simp only [pgSize]
    omega
  have hfilesz : ph.filesz % 2 ^ 32 = ph.filesz := Nat.mod_eq_of_lt (by omega)
  rw [hfilesz, Does.bind]
  refine (loadseg_image hpic (Nat.dvd_of_mod_eq_zero (by omega)) (by omega)
    (Nat.mod_lt _ (by decide))).mono fun q w hq => ?_
  refine Does.ite (fun _ => (Does.pure _).mpr (by simp)) fun hpos => (Does.pure _).mpr ?_
  intro sz' hsz'
  cases hsz'
  obtain ⟨hinside, hw⟩ := hq hpos
  exact ⟨by omega, ⟨by omega, hinside⟩, us ++ new, L', Q', hw⟩

structure TableLoaded (K : Image) (L₀ : List Nat) (k₀ : Kern) (f : File) (pt n off sz : Nat)
    (img : Bytes) (k : Kern) : Prop where
  table : n = 0 ∨ off + n * sizeofProghdr ≤ f.size
  fits : ∀ ph ∈ loads (phdrs f n off), Fits f sz ph
  pictured : ∃ us L Q, Pictured K L₀ k₀ pt sz us L Q
    ((loads (phdrs f n off)).foldl (fun m ph => putSegment f m ph.cut) img) k

theorem Fits.mono {ph : Proghdr} {sz' : Nat} (h : Fits f sz ph) (hle : sz ≤ sz') :
    Fits f sz' ph := ⟨h.below.trans hle, h.inside⟩

theorem TableLoaded.load {n off sz' : Nat} (hph : (Proghdr.read f.data off).type = 1)
    (hin : off + sizeofProghdr ≤ f.size) (hfit : Fits f sz (Proghdr.read f.data off))
    (hle : sz ≤ sz') (h : TableLoaded K L₀ k₀ f pt n (off + sizeofProghdr) sz'
      (putSegment f img (Proghdr.read f.data off).cut) k) :
    TableLoaded K L₀ k₀ f pt (n + 1) off sz' img k := by
  have hloads : loads (phdrs f (n + 1) off) =
      Proghdr.read f.data off :: loads (phdrs f n (off + sizeofProghdr)) :=
    List.filter_cons_of_pos (by simpa using hph)
  refine ⟨.inr ?_, ?_, ?_⟩
  · rw [Nat.succ_mul]
    rcases h.table with rfl | htable <;> omega
  · rw [hloads]
    intro ph hmem
    rcases List.mem_cons.mp hmem with rfl | hmem
    · exact hfit.mono hle
    · exact h.fits ph hmem
  · rw [hloads, List.foldl_cons]
    exact h.pictured

theorem TableLoaded.skip {n off : Nat} (hph : (Proghdr.read f.data off).type ≠ 1)
    (hin : off + sizeofProghdr ≤ f.size)
    (h : TableLoaded K L₀ k₀ f pt n (off + sizeofProghdr) sz img k) :
    TableLoaded K L₀ k₀ f pt (n + 1) off sz img k := by
  have hloads : loads (phdrs f (n + 1) off) = loads (phdrs f n (off + sizeofProghdr)) :=
    List.filter_cons_of_neg (by simpa using hph)
  refine ⟨.inr ?_, hloads ▸ h.fits, hloads ▸ h.pictured⟩
  rw [Nat.succ_mul]
  rcases h.table with rfl | htable <;> omega

theorem loadPhdrs_image {n off : Nat} (h : Pictured K L₀ k₀ pt sz us L Q img k) :
    Does (loadPhdrs K f pt n off sz) (fun r t => ∀ sz', r = .ok sz' → sz ≤ sz' ∧
      TableLoaded K L₀ k₀ f pt n off sz' img t) k := by
  induction n generalizing k off sz us L Q img with
  | zero =>
    rw [loadPhdrs, Does.pure]
    intro sz' hsz'
    cases hsz'
    exact ⟨Nat.le_refl _, .inl rfl, by simp [phdrs, loads], us, L, Q, h⟩
  | succ n ih =>
    rw [loadPhdrs, Does.bind]
    refine (readi_spec.and (readi_full (by decide))).mono fun r t hr => ?_
    obtain ⟨⟨-, l, rfl⟩, hfull⟩ := hr
    refine Does.ite (fun _ => (Does.pure _).mpr (by simp)) fun heq => ?_
    have hin := hfull (by omega)
    have hoff : (off + sizeofProghdr) % 2 ^ 32 = off + sizeofProghdr :=
      Nat.mod_eq_of_lt (Nat.lt_of_le_of_lt hin f.size_lt)
    rw [Does.bind, hoff]
    by_cases hph : (Proghdr.read f.data off).type = 1
    · refine (loadPhdr_image h.faults hph).mono fun r w hr => ?_
      cases r with
      | error sz => exact (Does.pure _).mpr (by simp)
      | ok sz₁ =>
        obtain ⟨hle, hfit, us', L', Q', hpic⟩ := hr sz₁ rfl
        refine (ih hpic).mono fun r x hx sz' hsz' => ?_
        obtain ⟨hle', hx⟩ := hx sz' hsz'
        exact ⟨hle.trans hle', hx.load hph hin hfit hle'⟩
    · rw [loadPhdr, if_pos hph, Does.pure]
      refine (ih h.faults).mono fun r x hx sz' hsz' => ?_
      obtain ⟨hle, hx⟩ := hx sz' hsz'
      exact ⟨hle, hx.skip hph hin⟩

/-! ## The stack pages -/

/-- The address space with a guard page at `base` and a stack page after it. -/
structure Stacked (K : Image) (L₀ : List Nat) (k₀ : Kern) (pt base : Nat) (us : List UserPage)
    (L : List Nat) (Q : Multiset Nat) (k : Kern) : Prop where
  building : Building K L₀ k₀ pt (base + 2 * pgSize) us L Q k
  aligned : pgSize ∣ base
  guard : ∃ u, us[base / pgSize]? = some u ∧ u.flags &&& pteU = 0
  stack : ∃ u, us[base / pgSize + 1]? = some u ∧ u.flags &&& pteU ≠ 0

/-- What is below `n` shows `img`. -/
def Shows (us : List UserPage) (img : Bytes) (n : Nat) (m : Bytes) : Prop :=
  ∀ a < n, userByte us m a = some (img a)

def pushStack (pagetable sz1 : Nat) (argv : List (List UInt8)) :
    Code (Except Nat (Nat × Nat × Nat)) := do
  let stackbase := sub64 sz1 pgSize
  match ← pushArgs pagetable stackbase argv sz1 [] with
  | none => return .error sz1
  | some (sp, ustack) =>
    if maxArg ≤ ustack.length then Comp.stop "ustack"
    else
      let sp := align16 (sub64 sp ((ustack.length + 1) * 8))
      if sp < stackbase then return .error sz1
      else
        let r ← vm (copyout pagetable sp (wordsOf (ustack ++ [0])) ((ustack.length + 1) * 8))
        if r < 0 then return .error sz1
        else return .ok (sz1, sp, ustack.length)

def finish (K : Image) (pagetable entry : Nat) (path : List UInt8) :
    Except Nat (Nat × Nat × Nat) → Code Int
  | .error sz => bad K pagetable sz false
  | .ok (sz, sp, argc) => do
    commit K pagetable sz sp entry path
    return argc

theorem enter_eq {entry : Nat} {path : List UInt8} {argv : List (List UInt8)} :
    enter K pt sz entry path argv = buildStack K pt sz argv >>= finish K pt entry path := rfl

theorem userByte_set_guard {u : UserPage} {v : Nat} (hu : us[v]? = some u) (m : Bytes) (a : Nat) :
    userByte (us.set v u.guard) m a = userByte us m a := by
  unfold userByte
  by_cases hv : a / pgSize = v
  · obtain ⟨hlt, -⟩ := List.getElem?_eq_some_iff.mp hu
    rw [hv, List.getElem?_set_self hlt, hu]
    rfl
  · rw [List.getElem?_set_ne (Ne.symm hv)]

theorem noUser_and (flags : Nat) : noUser flags &&& pteU = 0 := by
  rw [noUser, Nat.and_assoc, show (2 ^ 64 - 1 - pteU) &&& pteU = 0 by decide, Nat.and_zero]

theorem Pictured.uvmclear {va : Nat} (h : Pictured K L₀ k₀ pt sz us L Q img k)
    (hva : va / pgSize < us.length) :
    Does (vm (uvmclear pt va)) (fun _ t =>
      Building K L₀ k₀ pt sz (us.set (va / pgSize) us[va / pgSize].guard) L Q t ∧
      Shows (us.set (va / pgSize) us[va / pgSize].guard) img (us.length * pgSize)
        t.phys.mem) k := by
  have hu := List.getElem?_eq_getElem hva
  have hsub : Q ⊆ ↑L + Q := Multiset.subset_of_le (Multiset.le_add_left _ _)
  rw [does_vm]
  refine (uvmclear_spec h.building.space hu).mono fun _ t ht => ?_
  refine ⟨⟨ht.1, ?_, ?_, h.building.agree.trans (ht.2.mono ?_), h.building.books⟩, fun a ha => ?_⟩
  · rw [List.length_set]
    exact h.building.size
  · rw [pagesOf_set_guard hu]
    exact h.building.total
  · rw [h.building.total, add_right_comm]
    exact Multiset.subset_of_le (Multiset.le_add_left _ _)
  · rw [userByte_set_guard hu, userByte_agree (ht.2.mono hsub) h.building.space.owns.aligned
      (fun u hu => h.building.space.disjoint hu) a]
    exact h.shows a ha


/-- Whatever the arguments are, there are no pages for the stack, or the arguments are pushed in
one and the same state. -/
theorem buildStack_cases (h : Pictured K L₀ k₀ pt sz us L Q img k) :
    (∀ argv, Does (buildStack K pt sz argv)
      (fun r t => ∃ sz', r = .error sz' ∧ Built K L₀ k₀ pt sz' t) k) ∨
    ∃ us' L' Q' w, Stacked K L₀ k₀ pt (pgRoundUp sz) us' L' Q' w ∧
      Shows us' img (pgRoundUp sz) w.phys.mem ∧
      ∀ argv R, Does (pushStack pt (pgRoundUp sz + 2 * pgSize) argv) R w →
        Does (buildStack K pt sz argv) R k := by
  have hsmall := h.building.space.small h.building.size
  have hround : pgRoundUp sz = us.length * pgSize := by
    rw [h.building.size]
    exact pgRoundUp_eq (by simp only [pgSize]; omega)
  have hnewsz : (pgRoundUp sz + 2 * pgSize) % 2 ^ 64 = pgRoundUp sz + 2 * pgSize := by
    rw [hround, h.building.size, npages]
    simp only [pgSize]
    omega
  have h' : Pictured K L₀ k₀ pt (pgRoundUp sz) us L Q img k := by
    refine ⟨⟨h.building.space, ?_, h.building.total, h.building.agree, h.building.books⟩,
      h.access, h.shows, h.zero⟩
    rw [hround, npages_mul]
  have hboth : Does (vm (uvmalloc K pt (pgRoundUp sz) (pgRoundUp sz + 2 * pgSize) pteW)) _ k :=
    (h'.building.uvmalloc (by decide)).and (h'.uvmalloc (by decide))
  obtain ⟨r, t, ⟨⟨-, _, _, _, hb, -⟩, hpic⟩, hcut⟩ := hboth.cut
  by_cases hr : r = 0
  · left
    intro argv
    unfold buildStack
    dsimp only
    rw [hnewsz]
    apply hcut
    rw [if_pos hr, Does.pure]
    rw [if_pos hr] at hb
    exact ⟨_, rfl, _, _, _, hb⟩
  · right
    obtain ⟨hmax, new, L', Q', hpic⟩ := hpic hr
    obtain rfl : r = pgRoundUp sz + 2 * pgSize := by omega
    have hbase : pgRoundUp sz / pgSize = us.length := by
      rw [hround]
      exact Nat.mul_div_cancel _ (by decide)
    have hlen : (us ++ new).length = us.length + 2 := by
      rw [hpic.building.size, hround, ← Nat.add_mul, npages_mul]
    have hsub : sub64 (pgRoundUp sz + 2 * pgSize) (2 * pgSize) = pgRoundUp sz := by
      simp only [sub64, pgSize] at *
      omega
    have hlt : pgRoundUp sz / pgSize < (us ++ new).length := by omega
    obtain ⟨_, w, ⟨hbuild, hshows⟩, hcut'⟩ := (hpic.uvmclear hlt).cut
    refine ⟨_, L', Q', w, ⟨hbuild, ⟨us.length, ?_⟩, ⟨_, List.getElem?_set_self hlt, ?_⟩, ?_⟩,
      fun a ha => hshows a ?_, fun argv R hR => ?_⟩
    · rw [hround, Nat.mul_comm]
    · exact noUser_and _
    · have hlt' : pgRoundUp sz / pgSize + 1 < (us ++ new).length := by omega
      refine ⟨(us ++ new)[pgRoundUp sz / pgSize + 1], ?_, hpic.access _ (List.getElem_mem hlt')⟩
      rw [List.getElem?_set_ne (by omega), List.getElem?_eq_getElem hlt']
    · rw [hlen, Nat.add_mul]
      omega
    · unfold buildStack
      dsimp only
      rw [hnewsz]
      apply hcut
      rw [if_neg hr, hsub]
      exact hcut' _ R hR

/-- The state in which the arguments are pushed: the segments that were found are in place, and
the stack is above them. -/
structure Ready (K : Image) (L₀ : List Nat) (k₀ : Kern) (f : File) (pt base : Nat)
    (us : List UserPage) (L : List Nat) (Q : Multiset Nat) (k : Kern) : Prop where
  table : f.elf.phnum = 0 ∨ f.elf.phoff % 2 ^ 32 + f.elf.phnum * sizeofProghdr ≤ f.size
  fits : ∀ ph ∈ f.found, Fits f base ph
  stacked : Stacked K L₀ k₀ pt base us L Q k
  shows : Shows us f.foundImage base k.phys.mem

theorem Pictured.rebase {k₁ t : Kern} (h : Pictured K L₀ k₀ pt sz us L Q img k)
    (hphys : t.phys = k.phys) (hphys₀ : k₁.phys = k₀.phys) (hproc : k₁.proc = k₀.proc)
    (hbooks : t.books = k₁.books) : Pictured K L₀ k₁ pt sz us L Q img t := by
  have hb := h.building
  refine ⟨⟨?_, hb.size, hb.total, ?_, hbooks⟩, h.access, ?_, h.zero⟩
  · rw [hphys, hproc]
    exact hb.space
  · rw [hphys, hphys₀]
    exact hb.agree
  · rw [hphys]
    exact h.shows

end

section

variable {K : Image} {L : List Nat} {k : Kern} {us : List UserPage} {Q : Multiset Nat} {f : File}
  {path : List UInt8}

/-- Whatever the arguments are: `m` fails before it comes to them, or they are pushed in one and
the same state. -/
def Splits (K : Image) (L : List Nat) (k₀ : Kern) (f : File) (path : List UInt8)
    (m : List (List UInt8) → Code Int) (k : Kern) : Prop :=
  (∀ argv, Does (m argv) (fun r _ => r = -1) k) ∨
    ∃ pt base us L' Q w, Ready K L k₀ f pt base us L' Q w ∧ ∀ argv R,
      Does (pushStack pt (base + 2 * pgSize) argv >>= finish K pt f.elf.entry path) R w →
        Does (m argv) R k

theorem Splits.seq {α : Type} {k₀ : Kern} {m : Code α} {g : List (List UInt8) → α → Code Int}
    {P : α → Kern → Prop} (h : Does m P k)
    (hg : ∀ a t, P a t → Splits K L k₀ f path (fun argv => g argv a) t) :
    Splits K L k₀ f path (fun argv => m >>= g argv) k := by
  obtain ⟨a, t, hP, hcut⟩ := h.cut
  rcases hg a t hP with hfail | ⟨pt, base, us', L', Q', w, hready, hrun⟩
  · exact .inl fun argv => hcut _ _ (hfail argv)
  · exact .inr ⟨pt, base, us', L', Q', w, hready, fun argv R hR => hcut _ R (hrun argv R hR)⟩

theorem Splits.ite {k₀ : Kern} {c : Prop} [Decidable c] {m : Code Int}
    {m' : List (List UInt8) → Code Int} (h : c → Does m (fun r _ => r = -1) k)
    (h' : ¬ c → Splits K L k₀ f path m' k) :
    Splits K L k₀ f path (fun argv => if c then m else m' argv) k := by
  by_cases hc : c
  · simp only [if_pos hc]
    exact .inl fun _ => h hc
  · simp only [if_neg hc]
    exact h' hc

/-- The file has been loaded and closed. -/
theorem enter_splits {pt sz : Nat} {w : Kern}
    (h : TableLoaded K L k f pt f.elf.phnum (f.elf.phoff % 2 ^ 32) sz (fun _ => 0) w) :
    Splits K L k f path (fun argv => enter K pt sz f.elf.entry path argv) w := by
  obtain ⟨us', L', Q', hpic⟩ := h.pictured
  have hle : sz ≤ pgRoundUp sz := by
    have := hpic.building.space.small hpic.building.size
    rw [pgRoundUp_eq (by simp only [pgSize]; omega), npages]
    simp only [pgSize]
    omega
  simp only [enter_eq]
  rcases buildStack_cases hpic with hfail | ⟨us'', L'', Q'', x, hstacked, hshows, hrun⟩
  · left
    intro argv
    rw [Does.bind]
    refine (hfail argv).mono fun r t hr => ?_
    obtain ⟨sz', rfl, hbuilt⟩ := hr
    exact (bad_closed hbuilt).mono fun _ _ hbad => hbad.1
  · right
    refine ⟨pt, pgRoundUp sz, us'', L'', Q'', x, ⟨h.table, ?_, hstacked, hshows⟩, ?_⟩
    · exact fun ph hph => (h.fits ph hph).mono hle
    · intro argv R hR
      rw [Does.bind] at hR ⊢
      exact hrun argv _ hR

theorem procPagetable_pictured {w : Kern}
    (ha : AddrSpace K k.phys L k.proc.pagetable k.proc.sz k.proc.trapframe us Q)
    (hphys : w.phys = k.phys) (hbooks : w.books = k.opened.books) :
    Does (vm (procPagetable K w.proc.trapframe)) (fun pt t =>
      pt = 0 ∧ t.books = k.opened.books ∧ Restored K L k.phys t.phys ∨
      pt ≠ 0 ∧ ∃ L' Q', Pictured K L k.opened pt 0 [] L' Q' (fun _ => 0) t) w := by
  have hfree : FreeList K w.phys L := hphys ▸ ha.space.owns.free
  have hframe : IsPage K w.proc.trapframe := (Kern.books_ext hbooks).1 ▸ ha.frame
  rw [does_vm]
  refine (procPagetable_spec hfree hframe).mono fun pt t hpt => ?_
  rw [hphys, (Kern.books_ext hbooks).1] at hpt
  rcases hpt with ⟨hz, hrest⟩ | ⟨hne, L', Q', hmade⟩
  · exact .inl ⟨hz, hbooks, hrest⟩
  · refine .inr ⟨hne, L', Q', ⟨hmade.space, by decide, ?_, hmade.agree, hbooks⟩, ?_, ?_,
      fun _ _ => rfl⟩
    · rw [hmade.total]
      simp [pagesOf]
    · simp [Accessible]
    · simp

theorem execFile_splits (ha : AddrSpace K k.phys L k.proc.pagetable k.proc.sz k.proc.trapframe us Q)
    (hlock : k.locked = false) (href : 0 ≤ k.ref) :
    Splits K L k f path (execFile K f path) k.opened := by
  have hfree := ha.space.owns.free
  have hearly : ∀ {w : Kern}, w.books = k.opened.books → Restored K L k.phys w.phys →
      Does (bad K 0 0 true) (fun r _ => r = -1) w :=
    fun hw hr => (bad_early hlock href hw hr).mono fun _ _ hbad => hbad.1
  unfold execFile
  refine Splits.seq readi_spec fun n w hw => ?_
  have hphys : w.phys = k.phys := by
    obtain ⟨-, l, rfl⟩ := hw
    rfl
  have hbooks : w.books = k.opened.books := by
    obtain ⟨-, l, rfl⟩ := hw
    rfl
  have hrest : Restored K L k.phys w.phys := by
    rw [hphys]
    exact Restored.refl hfree
  refine Splits.ite (fun _ => hearly hbooks hrest) fun _ => ?_
  refine Splits.ite (fun _ => hearly hbooks hrest) fun _ => ?_
  refine Splits.seq (P := fun a t => a = w ∧ t = w) (Does.get.mpr ⟨rfl, rfl⟩) fun k' t ht => ?_
  obtain ⟨rfl, rfl⟩ := ht
  refine Splits.seq (procPagetable_pictured ha hphys hbooks) fun pt t hpt => ?_
  refine Splits.ite (fun hz => ?_) fun hz => ?_
  · rcases hpt with ⟨-, hbooks', hrest'⟩ | ⟨hne, -⟩
    · exact hearly hbooks' hrest'
    · exact absurd hz hne
  rcases hpt with ⟨hz', -⟩ | ⟨-, L', Q', hpic⟩
  · exact absurd hz' hz
  have hloaded : Loaded K L k.opened pt 0 t := ⟨_, _, _, hpic.building, hpic.access⟩
  refine Splits.seq ((loadPhdrs_spec hloaded).and (loadPhdrs_image hpic)) fun r x hr => ?_
  obtain ⟨hresult, himage⟩ := hr
  cases r with
  | error sz => exact .inl fun _ => (bad_opened hlock href hresult).mono fun _ _ hbad => hbad.1
  | ok sz =>
    obtain ⟨-, htable⟩ := himage sz rfl
    obtain ⟨us', L'', Q'', hpic'⟩ := htable.pictured
    have hopen := hpic'.building.books
    have hclosed : TableLoaded K L k f pt f.elf.phnum (f.elf.phoff % 2 ^ 32) sz (fun _ => 0)
        x.closed := ⟨htable.table, htable.fits, us', L'', Q'',
      hpic'.rebase rfl rfl rfl (Kern.closed_books hlock hopen)⟩
    have hsplits : Splits K L k f path _ x.closed := enter_splits hclosed
    rcases hsplits with hfail | ⟨pt', base, us₁, L₁, Q₁, y, hready, hrun⟩
    · exact .inl fun argv => (close_iff href hopen).mpr (hfail argv)
    · exact .inr ⟨pt', base, us₁, L₁, Q₁, y, hready,
        fun argv R hR => (close_iff href hopen).mpr (hrun argv R hR)⟩

theorem exec_splits (ha : AddrSpace K k.phys L k.proc.pagetable k.proc.sz k.proc.trapframe us Q)
    (hlock : k.locked = false) (href : 0 ≤ k.ref) :
    Splits K L k f path (exec K (some f) path) k := by
  rcases execFile_splits ha hlock href with hfail | ⟨pt, base, us', L', Q', w, hready, hrun⟩
  · exact .inl fun argv => exec_opened hlock href (hfail argv)
  · exact .inr ⟨pt, base, us', L', Q', w, hready,
      fun argv R hR => exec_opened hlock href (hrun argv R hR)⟩

/-! ## The arguments are above the image -/

theorem Building.copyout {k₀ : Kern} {L₀ : List Nat} {pt sz va len : Nat} {src : Bytes}
    (h : Building K L₀ k₀ pt sz us L Q k) :
    Does (vm (copyout pt va src len)) (fun r t => Building K L₀ k₀ pt sz us L Q t ∧
      ∃ n, Stops (withUser us (upper K k₀.proc.trapframe)) va len r n ∧
        Overlaid us k.phys.mem t.phys.mem va n src) k := by
  rw [does_vm]
  refine (h.space.copyout_bytes (upper_kernel K _)).mono fun r t hr => ?_
  exact ⟨h.write hr.1 hr.2.1, hr.2.2⟩

theorem pushArgs_keeps {k₀ : Kern} {L₀ : List Nat} {pt sz stackbase sp : Nat}
    {argv : List (List UInt8)} {ustack : List Nat} (h : Building K L₀ k₀ pt sz us L Q k) :
    Does (pushArgs pt stackbase argv sp ustack) (fun _ t => Building K L₀ k₀ pt sz us L Q t ∧
      ∀ a < stackbase, userByte us t.phys.mem a = userByte us k.phys.mem a) k := by
  induction argv generalizing k sp ustack with
  | nil =>
    rw [pushArgs, Does.pure]
    exact ⟨h, fun _ _ => rfl⟩
  | cons arg argv ih =>
    rw [pushArgs]
    refine Does.ite (fun _ => (Does.pure _).mpr ⟨h, fun _ _ => rfl⟩) fun _ => ?_
    refine Does.ite (fun _ => (Does.pure _).mpr ⟨h, fun _ _ => rfl⟩) fun hsp => ?_
    rw [Does.bind]
    refine h.copyout.mono fun r t ht => ?_
    obtain ⟨hb, n, -, hover⟩ := ht
    have hbelow : ∀ a < stackbase, userByte us t.phys.mem a = userByte us k.phys.mem a := by
      intro a ha
      rw [hover a, if_neg (by omega)]
    refine Does.ite (fun _ => (Does.pure _).mpr ⟨hb, hbelow⟩) fun _ => ?_
    refine (ih hb).mono fun _ w hw => ⟨hw.1, fun a ha => ?_⟩
    rw [hw.2 a ha, hbelow a ha]

theorem Stacked.stackbase {k₀ : Kern} {L₀ : List Nat} {pt base : Nat}
    (h : Stacked K L₀ k₀ pt base us L Q k) :
    sub64 (base + 2 * pgSize) pgSize = base + pgSize := by
  have := h.building.space.small h.building.size
  simp only [sub64, pgSize] at *
  omega

theorem pushStack_keeps {k₀ : Kern} {L₀ : List Nat} {pt base : Nat} {argv : List (List UInt8)}
    (h : Stacked K L₀ k₀ pt base us L Q k) (hargv : argv.length < maxArg) :
    Does (pushStack pt (base + 2 * pgSize) argv) (fun r t =>
      Building K L₀ k₀ pt (base + 2 * pgSize) us L Q t ∧
      (∀ a < base, userByte us t.phys.mem a = userByte us k.phys.mem a) ∧
      (r = .error (base + 2 * pgSize) ∨ ∃ sp argc, r = .ok (base + 2 * pgSize, sp, argc))) k := by
  unfold pushStack
  dsimp only
  rw [h.stackbase, Does.bind]
  have hpush : Does (pushArgs pt (base + pgSize) argv (base + 2 * pgSize) []) _ k :=
    (pushArgs_keeps h.building).and (pushArgs_spec ⟨_, _, _, h.building⟩)
  refine hpush.mono fun r t hr => ?_
  obtain ⟨⟨hb, hkeep⟩, -, hlen⟩ := hr
  have hkeep' : ∀ a < base, userByte us t.phys.mem a = userByte us k.phys.mem a :=
    fun a ha => hkeep a (by omega)
  cases r with
  | none => exact (Does.pure _).mpr ⟨hb, hkeep', .inl rfl⟩
  | some p =>
    have hlt : ¬ maxArg ≤ p.2.length := by simpa [hlen p rfl] using hargv
    dsimp only
    rw [if_neg hlt]
    refine Does.ite (fun _ => (Does.pure _).mpr ⟨hb, hkeep', .inl rfl⟩) fun hsp => ?_
    rw [Does.bind]
    refine hb.copyout.mono fun r x hx => ?_
    obtain ⟨hb', n, -, hover⟩ := hx
    have hbelow : ∀ a < base, userByte us x.phys.mem a = userByte us k.phys.mem a := by
      intro a ha
      rw [hover a, if_neg (by omega), hkeep' a ha]
    refine Does.ite (fun _ => (Does.pure _).mpr ⟨hb', hbelow, .inl rfl⟩) fun _ => ?_
    exact (Does.pure _).mpr ⟨hb', hbelow, .inr ⟨_, _, rfl⟩⟩

/-- What the user sees of the new address space does not change when the old one is freed. -/
theorem Committed.userByte_eq {w t : Kern} {pt sz sp entry : Nat} {us' : List UserPage}
    {L' : List Nat} {Q' : Multiset Nat} (h : Committed K L us Q k w pt sz sp entry us' Q' t)
    (ha : AddrSpace K k.phys L k.proc.pagetable k.proc.sz k.proc.trapframe us Q)
    (hb : Building K L k pt sz us' L' Q' w) (a : Nat) :
    userByte us' t.phys.mem a = userByte us' w.phys.mem a := by
  refine userByte_agree h.agree (fun p hp => (ha.not_free hp).1) (fun u hu => ⟨?_, fun hp => ?_⟩) a
  · exact (hb.space.users u hu).page.aligned
  · exact (ha.not_free hp).2 (hb.users_free (mem_pagesOf.mpr ⟨u, hu, rfl⟩))

/-! ## The result -/

theorem putSegment_cut {ph : Proghdr} (h : ph.filesz = 0 ∨ ph.off < 2 ^ 32) (m : Bytes) :
    putSegment f m ph.cut = putSegment f m ph := by
  unfold putSegment Proghdr.cut
  dsimp only
  rcases h with h | h
  · rw [h, splice_zero, splice_zero]
  · rw [Nat.mod_eq_of_lt h]

theorem File.Narrow.found (h : f.Narrow) : f.found = f.segments := by
  unfold File.found File.segments
  rcases h.1 with hz | hlt
  · rw [hz]
    rfl
  · rw [Nat.mod_eq_of_lt hlt]

theorem File.Narrow.image (h : f.Narrow) : f.foundImage = f.image := by
  unfold File.foundImage File.image
  rw [h.found]
  exact List.foldl_ext _ _ _ fun m ph hph => putSegment_cut (h.2 ph hph) m

/-- With offsets that fit into 32 bits, the segments that were found are those of the file; with
others, what the headers describe is not in the file. -/
theorem Ready.image_iff {pt base : Nat} {us' : List UserPage} {L' : List Nat} {Q' : Multiset Nat}
    {w t : Kern} (h : Ready K L k f pt base us' L' Q' w) (hguard : t.guard = base)
    (hbytes : ∀ a < base, userByte us' t.phys.mem a = userByte us' w.phys.mem a) :
    ImageLoaded f us' t ↔ f.Narrow := by
  have hsize := f.size_lt
  constructor
  · intro hi
    constructor
    · have := hi.table
      omega
    · intro ph hph
      have := hi.inside ph hph
      omega
  · intro hn
    have hfits := h.fits
    rw [hn.found] at hfits
    refine ⟨?_, fun ph hph => ?_, fun ph hph => ?_, fun a ha => ?_⟩
    · have := h.table
      have := hn.1
      omega
    · have := (hfits ph hph).inside
      have := hn.2 ph hph
      omega
    · rw [hguard]
      exact (hfits ph hph).below
    · rw [hguard] at ha
      rw [hbytes a ha, h.shows a ha, hn.image]

/-- For every executable file: `exec` returns, and if it has succeeded then user memory below the
guard page is the image that the program headers describe, exactly if all offsets that are used
fit into 32 bits. -/
theorem exec_loads_image_iff (f : File) (path : List UInt8) (argv : List (List UInt8)) (k : Kern)
    (hargv : argv.length < maxArg)
    (ha : AddrSpace K k.phys L k.proc.pagetable k.proc.sz k.proc.trapframe us Q)
    (hlock : k.locked = false) (href : 0 ≤ k.ref) :
    ∃ r t vs, exec K (some f) path argv k = ⟨.ok r, t, vs⟩ ∧ (0 ≤ r → ∃ L' us' Q',
      AddrSpace K t.phys L' t.proc.pagetable t.proc.sz t.proc.trapframe us' Q' ∧
      (ImageLoaded f us' t ↔ f.Narrow)) := by
  suffices hexec : Does (exec K (some f) path argv) (fun r t => 0 ≤ r → ∃ L' us' Q',
      AddrSpace K t.phys L' t.proc.pagetable t.proc.sz t.proc.trapframe us' Q' ∧
      (ImageLoaded f us' t ↔ f.Narrow)) k from hexec.result
  rcases exec_splits ha hlock href with hfail | ⟨pt, base, us', L', Q', w, hready, hrun⟩
  · refine (hfail argv).mono fun r _ hr hpos => ?_
    omega
  · apply hrun
    rw [Does.bind]
    refine (pushStack_keeps hready.stacked hargv).mono fun r x hx => ?_
    obtain ⟨hb, hkeep, rfl | ⟨sp, argc, rfl⟩⟩ := hx
    · refine (bad_closed ⟨us', L', Q', hb⟩).mono fun r _ hr hpos => ?_
      omega
    · rw [finish, Does.bind]
      refine (commit_spec hb ha).mono fun _ t ht => ?_
      rw [Does.pure]
      intro _
      obtain ⟨L'', hrep⟩ := ht.replaced
      refine ⟨L'', us', Q', hrep.space, hready.image_iff ?_ fun a ha' => ?_⟩
      · rw [Kern.guard, ht.size, Nat.add_sub_cancel]
      · rw [ht.userByte_eq ha hb, hkeep a ha']

end

/-! ## Examples

What can fail in `exec` comes before the old address space is freed, so that a run up to there
shows the result. -/

/-- The part of `exec` that can fail. -/
def tryLoad (K : Image) (f : File) (argv : List (List UInt8)) : Code (Option Nat) := do
  let n ← readi f 0 sizeofElfhdr
  let elf := Elfhdr.read f.data 0
  if n ≠ sizeofElfhdr then return none
  else if elf.magic ≠ elfMagic then return none
  else
    let k ← Comp.get
    let pagetable ← vm (procPagetable K k.proc.trapframe)
    if pagetable = 0 then return none
    else
      match ← loadPhdrs K f pagetable elf.phnum (elf.phoff % 2 ^ 32) 0 with
      | .error _ => return none
      | .ok sz =>
        iunlockput
        endOp
        match ← buildStack K pagetable sz argv with
        | .error _ => return none
        | .ok (_, _, argc) => return some argc

section

variable {K : Image} {L : List Nat} {k : Kern} {us : List UserPage} {Q : Multiset Nat} {f : File}
  {path : List UInt8} {argv : List (List UInt8)} {argc : Nat}

theorem exec_of_tryLoad
    (ha : AddrSpace K k.phys L k.proc.pagetable k.proc.sz k.proc.trapframe us Q)
    (hlock : k.locked = false) (href : 0 ≤ k.ref) (hargv : argv.length < maxArg)
    (h : (tryLoad K f argv k.opened).result.toOption = some (some argc)) :
    Does (exec K (some f) path argv) (fun r _ => r = argc) k := by
  have hrun := Does.of_result h
  apply exec_opened hlock href
  unfold tryLoad at hrun
  unfold execFile
  rw [Does.bind] at hrun ⊢
  refine (readi_spec.and hrun).mono fun n w hw => ?_
  obtain ⟨⟨-, l, hl⟩, hrun⟩ := hw
  have hphys : w.phys = k.phys := by rw [hl]; rfl
  have hbooks : w.books = k.opened.books := by rw [hl]; rfl
  clear hl
  by_cases hn : n ≠ sizeofElfhdr
  · rw [if_pos hn, Does.pure] at hrun
    cases hrun
  by_cases hmagic : (Elfhdr.read f.data 0).magic ≠ elfMagic
  · rw [if_neg hn, if_pos hmagic, Does.pure] at hrun
    cases hrun
  rw [if_neg hn, if_neg hmagic, Does.bind, Does.get, Does.bind] at hrun ⊢
  refine ((procPagetable_pictured ha hphys hbooks).and hrun).mono fun pt t ht => ?_
  obtain ⟨hpt, hrun⟩ := ht
  rcases hpt with ⟨hz, -⟩ | ⟨hne, L', Q', hpic⟩
  · rw [if_pos hz, Does.pure] at hrun
    cases hrun
  have hloaded : Loaded K L k.opened pt 0 t := ⟨_, _, _, hpic.building, hpic.access⟩
  rw [if_neg hne, Does.bind] at hrun ⊢
  refine ((loadPhdrs_spec hloaded).and hrun).mono fun r x hx => ?_
  obtain ⟨hresult, hrun⟩ := hx
  cases r with
  | error sz => cases (Does.pure _).mp hrun
  | ok sz =>
    have hbuilt := Loaded.built hresult
    have hopen : x.books = k.opened.books := by
      obtain ⟨_, _, _, hb⟩ := hbuilt
      exact hb.books
    have hclosed : Built K L k pt sz x.closed :=
      hbuilt.rebase rfl rfl rfl (Kern.closed_books hlock hopen)
    rw [close_iff href hopen, Does.bind] at hrun
    rw [close_iff href hopen, enter_eq, Does.bind]
    refine ((buildStack_spec hclosed hargv).and hrun).mono fun r y hy => ?_
    obtain ⟨hstack, hrun⟩ := hy
    cases r with
    | error sz => cases (Does.pure _).mp hrun
    | ok p =>
      obtain ⟨us', L'', Q'', hb⟩ := hstack
      have hargc := (Does.pure _).mp hrun
      rw [finish, Does.bind]
      refine (commit_spec hb ha).mono fun _ z _ => ?_
      rw [Does.pure, Option.some.inj hargc]

end

/-- An ELF file of 120 bytes with one segment of a page, of which 8 bytes are at `off` in the
file. -/
def segmentFile (off : Nat) : File where
  size := 120
  data := putLE (putLE (putLE (putLE (putLE (putLE (putLE (fun _ => 0) 0 4 elfMagic) 32 8 64)
    56 2 1) 64 4 1) 72 8 off) 96 8 8) 104 8 pgSize
  size_lt := hugeFile.size_lt

theorem exec_segmentFile {off argc : Nat} {argv : List (List UInt8)} {r : Int} {t : Kern}
    {vs : List Kern} (hargv : argv.length < maxArg)
    (h : (tryLoad sixteenPages (segmentFile off) argv firstKern.opened).result.toOption =
      some (some argc))
    (heq : exec sixteenPages (some (segmentFile off)) [47, 104] argv firstKern = ⟨.ok r, t, vs⟩) :
    r = argc := by
  obtain ⟨L, us, Q, ha⟩ := firstKern_space
  have hdoes : Does (exec sixteenPages (some (segmentFile off)) [47, 104] argv) _ firstKern :=
    exec_of_tryLoad ha rfl (by decide) hargv h
  obtain ⟨r', t', vs', heq', hr'⟩ := hdoes.result
  cases heq.symm.trans heq'
  exact hr'

theorem exec_loads_image_iff_start : ∃ r t vs,
    exec sixteenPages (some (segmentFile 0)) [47, 104] [[104]] firstKern = ⟨.ok r, t, vs⟩ ∧ r = 1 ∧
      ∃ us, ImageLoaded (segmentFile 0) us t := by
  obtain ⟨L, us, Q, ha⟩ := firstKern_space
  obtain ⟨r, t, vs, heq, hr⟩ := exec_loads_image_iff (segmentFile 0) [47, 104] [[104]] firstKern
    (by decide) ha rfl (by decide)
  have hone : r = (1 : Nat) := exec_segmentFile (by decide) (by decide +kernel) heq
  obtain ⟨-, us', -, -, hiff⟩ := hr (by omega)
  have hnarrow : (segmentFile 0).Narrow := by
    constructor
    · right
      decide +kernel
    · have hoff : (segmentFile 0).segments.all (fun ph => ph.off < 2 ^ 32) = true := by
        decide +kernel
      exact fun ph hph => .inr (of_decide_eq_true (List.all_eq_true.mp hoff ph hph))
  exact ⟨r, t, vs, heq, hone, us', hiff.mpr hnarrow⟩

/-- A segment at the offset 2^32 of a file of 120 bytes: `exec` succeeds and loads the bytes at
offset 0. -/
theorem exec_loads_wrong_bytes : ∃ r t vs,
    exec sixteenPages (some (segmentFile (2 ^ 32))) [47, 104] [[104]] firstKern = ⟨.ok r, t, vs⟩ ∧
      r = 1 ∧ ∀ us, ¬ ImageLoaded (segmentFile (2 ^ 32)) us t := by
  obtain ⟨L, us, Q, ha⟩ := firstKern_space
  have hspec : Does (exec sixteenPages (some (segmentFile (2 ^ 32))) [47, 104] [[104]]) _
      firstKern := exec_spec (by decide) ha rfl (by decide)
  obtain ⟨r, t, vs, heq, -⟩ := hspec.result
  have hout : (segmentFile (2 ^ 32)).segments.any (fun ph =>
      ph.filesz ≠ 0 ∧ (segmentFile (2 ^ 32)).size < ph.off + ph.filesz) = true := by
    decide +kernel
  obtain ⟨ph, hph, hbad⟩ := List.any_eq_true.mp hout
  have hbad := of_decide_eq_true hbad
  have hone : r = (1 : Nat) := exec_segmentFile (by decide) (by decide +kernel) heq
  refine ⟨r, t, vs, heq, hone, fun us hi => ?_⟩
  have := hi.inside ph hph
  omega

end Xv6.Exec
