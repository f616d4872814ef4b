import Xv6.Kernel.Fs.Resolve
import Xv6.System.Sessions

/-! # Paths in a session

After any session a process follows a path, component by component, from the root or from its
current directory. What `namei` and `nameiparent` return is said with the components alone,
so that it does not depend on how many slashes stand between them.
-/

namespace Xv6.System

open Lib Fs Mkfs

section

variable {m : Mode} {w : World} {s t : Store} {c : Nat} {path : List UInt8}

/-- `namei` is to return the inode that the components lead to. -/
def GivesInode (N : Nat → Node) (start : Nat) (path : List UInt8) (r : Option (Nat × List UInt8))
    (t : Store) : Prop :=
  t.node = N ∧ match r with
  | some (ip, _) => 0 < (t.mem.itable ip).ref ∧
      Leads N start (components path) (t.mem.itable ip).inum
  | none => ∀ k, ¬ Leads N start (components path) k

/-- `nameiparent` is to return the directory that all but the last component lead to, with the
last component in the name buffer. -/
def GivesParent (N : Nat → Node) (start : Nat) (path : List UInt8) (r : Option (Nat × List UInt8))
    (t : Store) : Prop :=
  t.node = N ∧ match r with
  | some (ip, name) => 0 < (t.mem.itable ip).ref ∧ ∃ init, components path = init ++ [nameOf name] ∧
      Leads N start init (t.mem.itable ip).inum ∧ (N (t.mem.itable ip).inum).type = tDir
  | none => ¬ ∃ init last k, components path = init ++ [last] ∧ Leads N start init k ∧
      (N k).type = tDir

theorem resolve_components (N : Nat → Node) (c : Nat) (path : List UInt8) (parent : Bool) :
    resolve N c path parent = walk N parent (pathStart c path) (components path) := by
  unfold resolve
  rw [pathElems_eq_components (Nat.le_refl _)]

theorem reached_inode (hs : m.sound) (hx : m.exact) {r : Option (Nat × List UInt8)}
    (h : Reached m w s false (resolve s.node c path false) (r.map (handed false)) t) :
    GivesInode s.node (pathStart c path) path r t := by
  rw [resolve_components] at h
  obtain ⟨hnode, hres⟩ := h
  refine ⟨hnode hx, ?_⟩
  cases r with
  | none =>
    intro k hk
    have hwalk := walk_eq_some_iff.mpr ⟨(rfl : (k, ([] : List UInt8)).2 = []), hk⟩
    rw [hres.2 hx] at hwalk
    cases hwalk
  | some r =>
    obtain ⟨j, known, hin, -, hwalk⟩ := hres
    obtain ⟨-, hpos, hnum, -⟩ := hin.take_entry hs
    refine ⟨hpos, ?_⟩
    rw [show (t.mem.itable r.1).inum = j from hnum]
    exact (walk_eq_some_iff.mp (hwalk hx)).2

theorem reached_parent (hs : m.sound) (hx : m.exact) {r : Option (Nat × List UInt8)}
    (h : Reached m w s true (resolve s.node c path true) (r.map (handed true)) t) :
    GivesParent s.node (pathStart c path) path r t := by
  rw [resolve_components] at h
  obtain ⟨hnode, hres⟩ := h
  refine ⟨hnode hx, ?_⟩
  cases r with
  | none =>
    intro hex
    obtain ⟨init, last, k, hcomp, hlead, hdir⟩ := hex
    have hwalk := (walk_parent_eq_some_iff (r := (k, last))).mpr ⟨init, hcomp, hlead, hdir⟩
    rw [hres.2 hx] at hwalk
    cases hwalk
  | some r =>
    obtain ⟨j, known, hin, -, hwalk⟩ := hres
    obtain ⟨-, hpos, hnum, -⟩ := hin.take_entry hs
    refine ⟨hpos, ?_⟩
    rw [show (t.mem.itable r.1).inum = j from hnum]
    exact walk_parent_eq_some_iff.mp (hwalk hx)

end

/-- Path resolution is lookup by components, for every path and every tree whose entries name
allocated inodes. -/
theorem path_resolution {st : Bool} {sb : Superblock} {blocks : Nat → Block} {t : Store}
    {calls : List (Nat × Syscall)} {p fuel : Nat} {path : List UInt8} (name : List UInt8)
    (hwf : WellFormed st sb blocks)
    (hrun : Run (Prog.serve Store.handle request) (fun _ e => e.2.Typed) (firstStore sb blocks)
      calls t)
    (htree : Rooted t.node) (hp : p < nProc) (hlive : (t.mem.proc p).live = true)
    (hfuel : path.length ≤ fuel) :
    Gets st (do beginOp; namexInto (t.mem.proc p).cwd path false name)
      (GivesInode t.node (pathStart (t.cwdOf p) path) path) t ∧
    Gets st (do beginOp; namexInto (t.mem.proc p).cwd path true name)
      (GivesParent t.node (pathStart (t.cwdOf p) path) path) t ∧
    names fuel path name = components path ∧
    components (slash :: path) = components path ∧ components (path ++ [slash]) = components path ∧
    ∀ a b, path = a ++ slash :: b → components (a ++ slash :: slash :: b) = components path := by
  have hfit : Fit ⟨st, True, True, False⟩ t := (hwf.fit_run (x := True) hrun).sound htree
  have hset := hwf.settled_run hrun
  obtain ⟨w, c, hr, hsb, hft, hpr, -⟩ := hfit.idle.ready hp hlive hfit.root hfit.small hfit.rooted
  have hcwd : t.cwdOf p = c := by
    have hnum := hr.world.num_refs hr.cwd
    rw [hpr] at hnum
    exact hnum
  have hc : ((t.mem.proc p).cwd, c) ∈ w.begun.refs := by
    rw [← hpr]
    exact hr.cwd
  have hops : 1 ≤ w.begun.ops := by
    show 1 ≤ w.ops + 1
    rw [hr.ops]
    decide
  rw [hcwd]
  have hboth : ∀ parent, Gets st (do beginOp; namexInto (t.mem.proc p).cwd path parent name)
      (fun r u => Reached ⟨st, True, True, False⟩ w.begun t parent (resolve t.node c path parent)
        (r.map (handed parent)) u) t := by
    intro parent
    have hbegin : Gets st beginOp _ t := begin_in hr.world
    refine wp_seq (Ends.gets hset.begin_op hbegin) fun _ u hu => ?_
    obtain ⟨hat, hin, hnode, hmem⟩ := hu
    have hgets := namex_gets path parent trivial trivial (hnode ▸ htree : Rooted u.node) hin hops
      hr.root hc hat fun _ => rfl
    rw [← namexInto_eq _ _ _ name, hnode] at hgets
    refine wp_mono (wp_map.mp hgets) (fun r z hz => ?_) fun _ _ he => he
    exact ⟨fun hx => (hz.1 hx).trans hnode, hz.2⟩
  refine ⟨?_, ?_, names_eq_components hfuel, components_slash path, components_trailing path, ?_⟩
  · exact wp_mono (hboth false) (fun _ _ hr => reached_inode trivial trivial hr) fun _ _ he => he
  · exact wp_mono (hboth true) (fun _ _ hr => reached_parent trivial trivial hr) fun _ _ he => he
  · intro a b hab
    rw [hab, components_slash_slash]

/-- On an empty disk `//.` leads to the root. -/
theorem path_resolution_doubled : ∃ blocks r t, WellFormed true sb blocks ∧
    Prog.returns Store.handle (do beginOp; namexInto 0 [slash, slash, 46] false [])
      (firstStore sb blocks) = some (some r, t) ∧
    GivesInode (nodesOn sb blocks) rootIno [slash, slash, 46] (some r) t := by
  have hrun : ((boot []).bind fun s => (Prog.returns Store.handle
      (do beginOp; namexInto 0 [slash, slash, 46] false []) s).map fun x => x.1.isSome) =
      some true := by decide +kernel
  obtain ⟨s, hboot, hret⟩ := Option.bind_eq_some_iff.mp hrun
  obtain ⟨⟨r, t⟩, hret, hsome⟩ := Option.map_eq_some_iff.mp hret
  obtain ⟨r, rfl⟩ := Option.isSome_iff_exists.mp hsome
  obtain ⟨img, g, hmade, rfl⟩ := (booted_of_boot hboot).made (by decide)
  have hwf : WellFormed true sb img.blocks := hmade.wellFormed (by decide) fun _ => by decide
  have hroot : Rooted (nodesOn sb img.blocks) := by
    rw [hmade.nodesOn_eq (by decide)]
    exact image_rooted (by decide)
  have hnode := firstStore_node sb img.blocks
  have hres := path_resolution (p := 0) [] hwf .nil (hnode ▸ hroot) (by decide) rfl
    (by decide : ([slash, slash, 46] : List UInt8).length ≤ 3)
  rw [hnode] at hres
  exact ⟨img.blocks, r, t, hwf, hret, Prog.wp_returns hres.1 hret⟩

end Xv6.System
