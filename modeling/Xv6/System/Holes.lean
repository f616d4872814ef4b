import Xv6.System.Sessions

/-! # Files without holes

A file has no holes if every block below its size has an address, and reading such a file
does not allocate anything. Every session of system calls keeps files without holes; the
image of `mkfs` has none unless the entries of the root directory fill its blocks.
-/

namespace Xv6.System

open Lib Fs Mkfs

/-- Every block of every file has an address. -/
def NoHoles (s : Store) : Prop :=
  ∀ i < s.mem.sb.ninodes, (s.inodeOf i).type ≠ 0 → ∀ bn, bn * bsize < (s.inodeOf i).size →
    slotAddr s.blocks (s.inodeOf i) (dataSlot bn) ≠ 0

/-- The blocks of a file are found without allocating one. -/
def FoundInPlace (s : Store) : Prop :=
  ∀ ip i bn, s.mem.Holds ip i → bn * bsize < (s.inodeOf i).size →
    wp (fun _ => False) (bmap ip bn) (fun a t => a ≠ 0 ∧ t = s) (fun _ _ => False) s

section

variable {s : Store} {nt : Prop} {L U : List Nat} {files : List Input}

theorem noHoles_of_inv (h : Inv true nt L U s) : NoHoles s := by
  obtain ⟨P, -, hdisk⟩ := h.disk
  exact fun i hi htype bn hbn => (hdisk.ok i hi htype).mapped bn hbn (.inr rfl)

theorem foundInPlace_of_inv (h : Inv true nt L U s) : FoundInPlace s := by
  intro ip i bn hholds hbn
  obtain ⟨P, -, hdisk⟩ := h.disk
  have hactive := h.active hdisk hholds
  have hok := hdisk.ok i hactive.lt hactive.type
  have hne := hok.mapped bn hbn (.inr rfl)
  exact bmap_mapped hactive (hok.lt_maxFile hbn) hne ⟨hne, rfl⟩

/-- On an image whose root directory ends at the end of a block, the root directory has a
hole. -/
theorem Booted.hole (hboot : Booted files s) (hfew : files.length + 2 ≤ sb.ninodes)
    (hfull : ¬ HoleFree files) : ¬ NoHoles s := by
  obtain ⟨img, g, hmade, rfl⟩ := hboot.made hfew
  have hb : bsize = 1024 := rfl
  have hd : direntSize = 16 := rfl
  have hn : sb.ninodes = 200 := rfl
  have hroot : rootIno < sb.ninodes := by decide
  have hinode : (firstStore sb img.blocks).inodeOf rootIno = g rootIno := by
    rw [firstStore_inodeOf, hmade.inodesOn_eq hroot]
  have hsize : (g rootIno).size = (rootSize files / bsize + 1) * bsize :=
    congrArg Node.size hmade.root
  have htype : (g rootIno).type = tDir := congrArg Node.type hmade.root
  intro hno
  have hmapped := hno rootIno hroot (by rw [hinode, htype]; decide) (rootSize files / bsize)
    (by rw [hinode, hsize, hb]; omega)
  rw [hinode] at hmapped
  have hsmall : rootSize files ≤ 3200 := by
    unfold rootSize
    rw [hd]
    omega
  have hlt := (hmade.rootMapped (rootSize files / bsize) ?_).mp hmapped
  · unfold HoleFree at hfull
    rw [hb] at hlt hfull
    omega
  · have hmax : maxFile = 268 := rfl
    rw [hb, hmax]
    omega

end

/-- Files never have holes, exactly if the entries of the root directory do not end where one
of its blocks ends: then no file gets a hole in any session, no read allocates a block, and
none is outside a transaction. -/
theorem noHoles_iff {files : List Input} {s : Store} (hboot : Booted files s)
    (hfew : files.length + 2 ≤ sb.ninodes) :
    ((∀ t, Reaches (fun _ e => e.2.Typed) s t → NoHoles t ∧ FoundInPlace t) ∧
      ¬ Panics (fun _ e => e.2.Typed) s "log_write outside of trans") ↔ HoleFree files := by
  constructor
  · intro hall
    by_contra hfull
    exact hboot.hole hfew hfull (hall.1 s (.left .nil)).1
  · intro hfree
    have hs := hboot.kept (m := ⟨true, False, False, False⟩) hfew (fun _ => hfree) id
    constructor
    · intro t ht
      obtain ⟨⟨v, hin⟩, -⟩ := (typed_suits _ _).reaches hs ht
      have hinv : Inv true False v.held v.pending t := hin.inv
      exact ⟨noHoles_of_inv hinv, foundInPlace_of_inv hinv⟩
    · intro hp
      exact (typed_suits _ _).panics hs hp (by decide)

theorem noHoles_iff_one : ∃ s, Booted [oneFile] s ∧
    (∀ t, Reaches (fun _ e => e.2.Typed) s t → NoHoles t ∧ FoundInPlace t) ∧
      ¬ Panics (fun _ e => e.2.Typed) s "log_write outside of trans" := by
  have hsome : (boot [oneFile]).isSome = true := by decide +kernel
  obtain ⟨s, hs⟩ := Option.isSome_iff_exists.mp hsome
  have hboot := booted_of_boot hs
  exact ⟨s, hboot, (noHoles_iff hboot (by decide)).mpr (by decide)⟩

/-- With 62 files the root directory has 64 entries, which fill one block. -/
def sixtyTwo : List Input := (List.range 62).map emptyFile

def anyBuffer : UserMem := ⟨fun _ => true, fun _ => 0⟩

def readRoot : List (Nat × Syscall) :=
  [(0, .open (some [slash]) 0), (0, .read 0 anyBuffer 0 1024 fun _ => (0, []))]

/-- The root directory has a hole, and reading it panics. -/
theorem root_hole : ∃ s, Booted sixtyTwo s ∧ ¬ NoHoles s ∧
    Panics (fun _ e => e.2.Typed) s "log_write outside of trans" := by
  have hrun : sessionPanic (fun _ e => e.2.Typed) sixtyTwo readRoot
      (0, .read 0 anyBuffer 0 1 fun _ => (0, [])) =
        some "log_write outside of trans" := by decide +kernel
  obtain ⟨s, hboot, hpanic⟩ := session_panics (fun _ _ h => of_decide_eq_true h) hrun
  exact ⟨s, hboot, hboot.hole (by decide) (by decide), hpanic⟩

end Xv6.System
