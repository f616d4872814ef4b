import Xv6.Kernel.Exec.Code
import Xv6.Kernel.Fs.Truncate

/-! # Files are byte arrays

The byte list of an inode, and what reading, writing and truncating do to it.
-/

namespace Xv6.Fs

open Lib

section

variable {I : Store → Prop} {E : Stop → Store → Prop} {st : Bool} {P : Nat → Prop}
  {s t u : Store} {ip i : Nat}

def Store.contentOf (s : Store) (i : Nat) : List UInt8 :=
  (nodeOf s.blocks (s.inodeOf i)).content

theorem Store.length_contentOf (s : Store) (i : Nat) :
    (s.contentOf i).length = (s.inodeOf i).size := by
  simp [contentOf, Node.content, nodeOf]

/-- Every block is owned once, no file has a hole, and entry `ip` holds the allocated
inode `i`. -/
structure Sound (ip i : Nat) (s : Store) : Prop where
  disk : Disk true (fun _ => False) s.mem.sb s.blocks s.inodeOf
  uniq : s.mem.Unique
  holds : s.mem.Holds ip i
  lt : i < s.mem.sb.ninodes
  type : (s.inodeOf i).type ≠ 0
  held : s.held = []
  touched : s.touched = []

theorem Sound.active (h : Sound ip i s) : Active (fun _ => False) ip i s :=
  ⟨h.disk.core, h.uniq, h.holds, h.lt, h.type, h.held, h.touched⟩

theorem Node.slice_content (n : Node) {off m : Nat} (h : off + m ≤ n.size) :
    n.slice off m = (n.content.drop off).take m := by
  apply List.ext_getElem
  · simp [content]
    omega
  · intro j h1 h2
    simp [slice, content]

theorem Node.slice_congr {n n' : Node} {off m : Nat}
    (h : ∀ p, off ≤ p → p < off + m → n.byte p = n'.byte p) : n.slice off m = n'.slice off m := by
  unfold slice
  exact List.map_congr_left fun j hj =>
    h _ (by omega) (by have := List.mem_range.mp hj; omega)

theorem Node.content_splice {n n' : Node} {src : Nat → UInt8} {off m : Nat} (h : off ≤ n.size)
    (hsize : n'.size = max n.size (off + m)) (hbyte : n'.byte = splice n.byte off m src) :
    n'.content = n.content.take off ++ (List.range m).map src ++ n.content.drop (off + m) := by
  have hsplit : n'.content = n'.slice 0 off ++ n'.slice off m ++
      n'.slice (off + m) (n.size - (off + m)) := by
    rw [content, show n'.size = off + m + (n.size - (off + m)) by omega, slice_add, slice_add]
    simp
  have hhead : n'.slice 0 off = n.content.take off := by
    have hsame : n'.slice 0 off = n.slice 0 off :=
      slice_congr fun p _ hp => by rw [hbyte, splice_outside (by omega)]
    rw [hsame, n.slice_content (by omega), List.drop_zero]
  have hmid : n'.slice off m = (List.range m).map src := by
    unfold slice
    refine List.map_congr_left fun j hj => ?_
    have := List.mem_range.mp hj
    rw [hbyte, splice_inside (by omega) (by omega), Nat.add_sub_cancel_left]
  have htail : n'.slice (off + m) (n.size - (off + m)) = n.content.drop (off + m) := by
    have hsame : n'.slice (off + m) (n.size - (off + m)) = n.slice (off + m) (n.size - (off + m)) :=
      slice_congr fun p hp _ => by rw [hbyte, splice_outside (by omega)]
    rw [hsame]
    by_cases hle : off + m ≤ n.size
    · rw [n.slice_content (by omega), List.take_of_length_le]
      simp [content]
    · rw [Nat.sub_eq_zero_of_le (by omega), List.drop_of_length_le]
      · rfl
      · simp [content]
        omega
  rw [hsplit, hhead, hmid, htail]

theorem readi_bytes (h : Sound ip i s) (off : Nat) {n : Nat} (hn : n < 2 ^ 32) {dst : Dst}
    (hdst : dst.Mapped n) : wp I (readi ip dst off n) (fun r t => t = s ∧
      ((s.inodeOf i).size < off ∨ 2 ^ 32 ≤ off + n → r = (0, [])) ∧
      (¬ ((s.inodeOf i).size < off ∨ 2 ^ 32 ≤ off + n) →
        r.1 = (min n ((s.inodeOf i).size - off) : Nat) ∧
          r.2 = ((s.contentOf i).drop off).take n)) (fun _ _ => False) s := by
  have hok := h.disk.ok i h.lt h.type
  refine readi_spec h.active hok hn (.inl rfl) fun r t hr hb => ⟨hr.same rfl, ?_⟩
  have hlen : readLen (s.inodeOf i).size off n ≤ n := by
    unfold readLen
    split <;> omega
  rcases hb with rfl | ⟨-, hc⟩
  · unfold readLen
    refine ⟨fun hnone => by rw [if_pos hnone]; rfl, fun hsome => ?_⟩
    rw [if_neg hsome]
    refine ⟨rfl, ?_⟩
    rw [Node.slice_content _ (by show off + _ ≤ (s.inodeOf i).size; omega)]
    rw [← s.length_contentOf, ← List.length_drop]
    exact List.take_eq_take_min.symm
  · exact absurd (hc (hdst.whole.mono hlen)).1 (by decide)

/-- `exec` and the file system read the same: the numbers are equal and the bytes are those of
the file, if none of its blocks is missing. -/
theorem readi_exec {f : Exec.File} {k : Exec.Kern} {off n : Nat} (h : Sound ip i s)
    (hf : s.contentOf i = (List.range f.size).map f.data) (hoff : off < 2 ^ 32) (hn : n < 2 ^ 32)
    (hk : k.faults = []) : ∃ m, (Exec.readi f off n k).result = .ok m ∧
      (Exec.readi f off n k).final = k ∧ wp I (readi ip .kernel off n) (fun r t => t = s ∧
        r = ((m : Int), ((s.contentOf i).drop off).take m)) (fun _ _ => False) s := by
  have hsize : f.size = (s.inodeOf i).size := by
    rw [← s.length_contentOf, hf, List.length_map, List.length_range]
  have hwp := readi_bytes (I := I) h off hn (show Dst.kernel.Mapped n from trivial)
  cases k
  obtain rfl : _ = [] := hk
  unfold Exec.readi
  by_cases hbad : f.size < off ∨ (off + n) % 2 ^ 32 < off
  · rw [if_pos hbad]
    refine ⟨0, rfl, rfl, wp_mono hwp (fun r t hr => ⟨hr.1, hr.2.1 (by omega)⟩) fun _ _ he => he⟩
  · rw [if_neg hbad]
    refine ⟨_, rfl, rfl, wp_mono hwp (fun r t hr => ⟨hr.1, ?_⟩) fun _ _ he => he⟩
    obtain ⟨hnum, hbytes⟩ := hr.2.2 (by omega)
    have hm : (if f.size < off + n then f.size - off else n) = min n (f.size - off) := by
      split <;> omega
    rw [List.headD_nil, Nat.min_self, hm]
    refine Prod.ext (hsize ▸ hnum) ?_
    rw [hbytes, hsize, ← s.length_contentOf, ← List.length_drop]
    exact List.take_eq_take_min
end

end Xv6.Fs
