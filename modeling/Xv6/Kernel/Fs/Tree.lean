import Xv6.Kernel.Fs.Table

/-! # The tree of files

The file system as its callers see it: a node for every inode number. Directories are
searched and paths are followed by pure functions on the nodes, and a system call
changes the nodes by an `Edit` and by freeing inodes without links.
-/

namespace Xv6.Fs

open Lib

/-! ## Entries of a directory -/

def entryName (n : Node) (j : Nat) : List UInt8 := n.slice (direntSize * j + 2) dirSiz

def entryMatches (n : Node) (name : List UInt8) (j : Nat) : Bool :=
  entryInum n j ≠ 0 && namecmpEq name (entryName n j)

/-- The inode that `name` stands for in a directory, and the index of its entry. -/
def Node.lookup (n : Node) (name : List UInt8) : Option (Nat × Nat) :=
  ((List.range (n.size / direntSize)).find? (entryMatches n name)).map fun j => (entryInum n j, j)

/-- Entry `j` is where a new name goes: one that is not in use, or the end. -/
def Node.FreeSlot (n : Node) (j : Nat) : Prop :=
  direntSize * j + direntSize ≤ n.size ∧ entryInum n j = 0 ∨ direntSize * j = n.size

def Node.Empty (n : Node) : Prop :=
  ∀ j, 2 ≤ j → direntSize * j + direntSize ≤ n.size → entryInum n j = 0

def Node.setEntry (n : Node) (j : Nat) (de : Nat → UInt8) : Node :=
  { n with
    size := max n.size (direntSize * j + direntSize)
    byte := splice n.byte (direntSize * j) direntSize de }

/-! ## Paths -/

/-- The directory a path is followed from. -/
def pathStart (cwd : Nat) (path : List UInt8) : Nat :=
  if path.headD 0 = slash then rootIno else cwd

/-- The path is followed from inode `i`, with `parent` up to the directory of its last
element. -/
def walk (N : Nat → Node) (parent : Bool) : Nat → List (List UInt8) → Option (Nat × List UInt8)
  | i, [] => if parent then none else some (i, [])
  | i, name :: rest =>
      if (N i).type ≠ tDir then none
      else if parent ∧ rest = [] then some (i, name)
      else
        match (N i).lookup name with
        | none => none
        | some (next, _) => walk N parent next rest

/-- What a path stands for to a process whose current directory is inode `cwd`. -/
def resolve (N : Nat → Node) (cwd : Nat) (path : List UInt8) (parent : Bool) :
    Option (Nat × List UInt8) :=
  walk N parent (pathStart cwd path) (pathElems path.length path)

/-! ## Changes -/

/-- Inodes without links are freed. -/
def Freed (N N' : Nat → Node) : Prop :=
  ∀ i, N' i = N i ∨ (N i).type ≠ 0 ∧ (N i).nlink = 0 ∧ N' i = Node.free

theorem Freed.refl (N : Nat → Node) : Freed N N := fun _ => .inl rfl

theorem Freed.trans {N N' N'' : Nat → Node} (h : Freed N N') (h' : Freed N' N'') :
    Freed N N'' := by
  intro i
  rcases h' i with hi | ⟨htype, hlink, hi⟩
  · rw [hi]
    exact h i
  · rcases h i with hold | ⟨-, -, hfree⟩
    · rw [hold] at htype hlink
      exact .inr ⟨htype, hlink, hi⟩
    · -- what is free already is not freed again
      rw [hfree] at htype
      exact absurd rfl htype

inductive Edit where
  | content (i size : Nat) (byte : Nat → UInt8)
  | link (d j i : Nat) (name : List UInt8)
  | make (d j i : Nat) (name : List UInt8) (type major minor : BitVec 16)
  | unlink (d j i : Nat) (name : List UInt8)

def Node.addLink (n : Node) : Node := { n with nlink := n.nlink + 1 }

def Node.subLink (n : Node) : Node := { n with nlink := n.nlink - 1 }

def Node.new (type major minor : BitVec 16) : Node := ⟨type, major, minor, 1, 0, fun _ => 0⟩

/-- A new inode as `create` leaves it; a directory has its `.` and `..`. -/
def Node.made (d i : Nat) (type major minor : BitVec 16) : Node :=
  if type = tDir then
    ((Node.new type major minor).setEntry 0 (direntBytes dot i)).setEntry 1 (direntBytes dotdot d)
  else Node.new type major minor

def Edit.apply (N : Nat → Node) : Edit → Nat → Node
  | content i size byte => upd N i { N i with size := size, byte := byte }
  | link d j i name =>
      let N := upd N i (N i).addLink
      upd N d ((N d).setEntry j (direntBytes name i))
  | make d j i name type major minor =>
      let N := upd N i (Node.made d i type major minor)
      let N := upd N d ((N d).setEntry j (direntBytes name i))
      if type = tDir then upd N d (N d).addLink else N
  | unlink d j i _ =>
      let isDir := (N i).type = tDir
      let N := upd N d ((N d).setEntry j fun _ => 0)
      let N := if isDir then upd N d (N d).subLink else N
      upd N i (N i).subLink

/-- What the code has made sure of when it changes the nodes. -/
def Edit.Ok (ninodes : Nat) (N : Nat → Node) : Edit → Prop
  | content i _ _ => (N i).type ≠ 0 ∧ (N i).type ≠ tDir
  | link d j i name =>
      (N d).type = tDir ∧ (N i).type ≠ 0 ∧ (N i).type ≠ tDir ∧ i < ninodes ∧ d < ninodes ∧
        (N d).lookup name = none ∧ (N d).FreeSlot j
  | make d j i name type _ _ =>
      (N d).type = tDir ∧ N i = Node.free ∧ 0 < i ∧ i < ninodes ∧ type ≠ 0 ∧ d < ninodes ∧
        (N d).lookup name = none ∧ (N d).FreeSlot j
  | unlink d j i name =>
      (N d).type = tDir ∧ (N i).type ≠ 0 ∧ i < ninodes ∧ d < ninodes ∧ 1 ≤ (N i).nlink.toInt ∧
        namecmpEq name dot = false ∧ namecmpEq name dotdot = false ∧
        (N d).lookup name = some (i, j) ∧ ((N i).type = tDir → (N i).Empty)

/-- One of the edits in `R` is made or none, and inodes without links are freed. -/
def Effect (ninodes : Nat) (R : Edit → Prop) (N N' : Nat → Node) : Prop :=
  ∃ N₁, (N₁ = N ∨ ∃ e, R e ∧ e.Ok ninodes N ∧ N₁ = e.apply N) ∧ Freed N₁ N'

/-- Where the parent of a path has an entry for its last element, the path leads to what the
entry names. -/
theorem walk_last {N : Nat → Node} {i d j slot : Nat} {name : List UInt8}
    {elems : List (List UInt8)} (h : walk N true i elems = some (d, name))
    (hfound : (N d).lookup name = some (j, slot)) : walk N false i elems = some (j, []) := by
  induction elems generalizing i with
  | nil => cases h
  | cons first rest ih =>
    rw [walk, ite_not] at h ⊢
    split at h
    · rename_i hdir
      rw [if_pos hdir, if_neg (by simp : ¬ (false = true ∧ rest = []))]
      split at h
      · rename_i hlast
        cases h
        rw [hlast.2, hfound]
        rfl
      · cases hnext : (N i).lookup first with
        | none =>
          rw [hnext] at h
          cases h
        | some e =>
          rw [hnext] at h
          exact ih h
    · cases h

/-- A walk sees the types and the entries of directories only. -/
theorem walk_congr {N N' : Nat → Node} (htype : ∀ i, (N' i).type = (N i).type)
    (hlook : ∀ i name, (N' i).lookup name = (N i).lookup name) (parent : Bool) (i : Nat)
    (elems : List (List UInt8)) : walk N' parent i elems = walk N parent i elems := by
  induction elems generalizing i with
  | nil => rfl
  | cons name rest ih =>
    unfold walk
    rw [htype i, hlook i name]
    cases (N i).lookup name with
    | none => rfl
    | some e => simp only [ih]

end Xv6.Fs
