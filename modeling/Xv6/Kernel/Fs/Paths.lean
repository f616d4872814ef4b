import Mathlib.Data.List.SplitOn
import Mathlib.Data.List.TakeWhile
import Xv6.Kernel.Fs.Descriptors

/-! # Paths as lists of components

`skipelem` moves a pointer through a path and leaves the next element in a buffer that is
not cleared before. The components of a path are defined by cutting it at its slashes;
repeated calls of `skipelem` give exactly these, and `namex` with its pointer and its buffer
is the walk over the list of components.
-/

namespace Xv6.Fs

open Lib

/-! ## Names -/

/-- What `namecmp` compares: the bytes up to the first zero, cut to the length of a name. -/
def nameOf (l : List UInt8) : List UInt8 := (l.take dirSiz).takeWhile (· ≠ 0)

theorem strncmpEq_iff (n : Nat) (s t : List UInt8) : strncmpEq n s t = true ↔
    (s.take n).takeWhile (· ≠ 0) = (t.take n).takeWhile (· ≠ 0) := by
  induction n generalizing s t with
  | zero => simp [strncmpEq]
  | succ n ih =>
    unfold strncmpEq
    cases s with
    | nil =>
      cases t with
      | nil => simp
      | cons b t =>
        by_cases hb : b = 0
        · simp [hb]
        · simp [hb, Ne.symm hb]
    | cons a s =>
      cases t with
      | nil =>
        by_cases ha : a = 0
        · simp [ha]
        · simp [ha]
      | cons b t =>
        by_cases ha : a = 0
        · by_cases hb : b = 0
          · simp [ha, hb]
          · simp [ha, hb, Ne.symm hb]
        · by_cases hab : a = b
          · subst hab
            simp [ha, ih]
          · by_cases hb : b = 0
            · simp [ha, hb]
            · simp [ha, hb, hab]

theorem namecmpEq_iff {s t : List UInt8} : namecmpEq s t = true ↔ nameOf s = nameOf t :=
  strncmpEq_iff dirSiz s t

theorem takeWhile_take {α : Type} (p : α → Bool) (n : Nat) (l : List α) :
    (l.take n).takeWhile p = (l.takeWhile p).take n := by
  induction l generalizing n with
  | nil => simp
  | cons a l ih =>
    cases n with
    | zero => simp
    | succ n =>
      by_cases ha : p a = true
      · simp [ha, ih]
      · simp [ha]

/-! ## Components -/

def text (path : List UInt8) : List UInt8 := path.takeWhile (· ≠ 0)

def segments (l : List UInt8) : List (List UInt8) := (l.splitOn slash).filter (· ≠ [])

/-- The components of a path: the maximal non-empty pieces without a slash, each cut to the
length of a name. -/
def components (path : List UInt8) : List (List UInt8) :=
  (segments (text path)).map (List.take dirSiz)

section

variable {path name rest a b l w : List UInt8} {fuel : Nat}

/-! ## Pieces -/

theorem segments_append_slash (a b : List UInt8) :
    segments (a ++ slash :: b) = segments a ++ segments b := by
  unfold segments
  rw [List.splitOn_eq_splitOnP, List.splitOn_eq_splitOnP, List.splitOn_eq_splitOnP,
    List.splitOnP_append_cons a b (by simp), List.filter_append]

@[simp] theorem segments_nil : segments [] = [] := by
  simp [segments]

theorem segments_piece (hw : w ≠ []) (hs : ∀ c ∈ w, c ≠ slash) : segments w = [w] := by
  unfold segments
  rw [List.splitOn_eq_splitOnP, List.splitOnP_eq_singleton (fun c hc => by simpa using hs c hc)]
  simp [hw]

theorem text_append (ha : ∀ c ∈ a, c ≠ 0) (b : List UInt8) : text (a ++ b) = a ++ text b :=
  List.takeWhile_append_of_pos fun c hc => by simpa using ha c hc

/-- What stands behind a zero does not count. -/
theorem text_append_of_zero (ha : 0 ∈ a) (b : List UInt8) : text (a ++ b) = text a := by
  induction a with
  | nil => cases ha
  | cons c a ih =>
    by_cases hc : c = 0
    · simp [text, hc]
    · have hrest := ih ((List.mem_cons.mp ha).resolve_left (Ne.symm hc))
      simpa [text, hc] using hrest

theorem components_append_slash (ha : 0 ∉ a) (b : List UInt8) :
    components (a ++ slash :: b) = components a ++ components b := by
  have hall : ∀ c ∈ a, c ≠ 0 := fun c hc heq => ha (heq ▸ hc)
  have hslash : text (slash :: b) = slash :: text b :=
    List.takeWhile_cons_of_pos (by decide)
  have htext : text a = a := by
    have h := text_append hall []
    rwa [List.append_nil, show text [] = [] from rfl, List.append_nil] at h
  unfold components
  rw [text_append hall, hslash, htext, segments_append_slash, List.map_append]

/-- A slash in front changes no component. -/
theorem components_slash (l : List UInt8) : components (slash :: l) = components l :=
  components_append_slash (a := []) List.not_mem_nil l

/-- Nor does a second slash after a slash, -/
theorem components_slash_slash (a b : List UInt8) :
    components (a ++ slash :: slash :: b) = components (a ++ slash :: b) := by
  by_cases ha : 0 ∈ a
  · unfold components
    rw [text_append_of_zero ha, text_append_of_zero ha]
  · rw [components_append_slash ha, components_append_slash ha, components_slash]

/-- nor one at the end. -/
theorem components_trailing (a : List UInt8) : components (a ++ [slash]) = components a := by
  by_cases ha : 0 ∈ a
  · unfold components
    rw [text_append_of_zero ha]
  · rw [components_append_slash ha]
    exact List.append_nil _

/-! ## `skipelem` -/

theorem components_dropSlashes (path : List UInt8) :
    components (path.dropWhile (· = slash)) = components path := by
  induction path with
  | nil => rfl
  | cons c path ih =>
    by_cases hc : c = slash
    · rw [List.dropWhile_cons_of_pos (by simpa using hc), ih, hc, components_slash]
    · rw [List.dropWhile_cons_of_neg (by simpa using hc)]

theorem components_ended (h : path.headD 0 = 0) : components path = [] := by
  cases path with
  | nil => rfl
  | cons c path =>
    have hc : c = 0 := h
    simp [components, text, hc]

theorem components_elem (hz : path.headD 0 ≠ 0) (hs : path.headD 0 ≠ slash) :
    components path = (path.takeWhile fun c => c ≠ slash ∧ c ≠ 0).take dirSiz ::
      components (path.dropWhile fun c => c ≠ slash ∧ c ≠ 0) := by
  set p : UInt8 → Bool := fun c => c ≠ slash ∧ c ≠ 0 with hp
  have hin : ∀ c ∈ path.takeWhile p, c ≠ slash ∧ c ≠ 0 := fun c hc => by
    simpa [hp] using List.mem_takeWhile_imp hc
  have hne : path.takeWhile p ≠ [] := by
    cases path with
    | nil => exact absurd rfl hz
    | cons c path =>
      have hc : p c = true := by simpa [hp] using And.intro hs hz
      rw [List.takeWhile_cons_of_pos hc]
      exact List.cons_ne_nil _ _
  have hsplit : path = path.takeWhile p ++ path.dropWhile p :=
    List.takeWhile_append_dropWhile.symm
  have hpiece := segments_piece hne fun c hc => (hin c hc).1
  have htext := text_append (fun c hc => (hin c hc).2) (path.dropWhile p)
  have hfirst : components path = ((segments (path.takeWhile p ++ text (path.dropWhile p))).map
      (List.take dirSiz)) := by
    unfold components
    rw [← htext, ← hsplit]
  rw [hfirst]
  -- the element ends at a slash, at the zero or with the list
  cases hd : path.dropWhile p with
  | nil =>
    rw [show text [] = [] from rfl, List.append_nil, hpiece]
    rfl
  | cons c q =>
    have hc : ¬ (c ≠ slash ∧ c ≠ 0) := by
      have hhead := List.head_dropWhile_not p (by rw [hd]; exact List.cons_ne_nil _ _)
      simp only [hd, List.head_cons] at hhead
      simpa [hp] using hhead
    by_cases hcs : c = slash
    · have hq : text (slash :: q) = slash :: text q := List.takeWhile_cons_of_pos (by decide)
      rw [hcs, hq, segments_append_slash, hpiece, List.map_append, components_slash]
      rfl
    · have hcz : c = 0 := by
        by_contra hcz
        exact hc ⟨hcs, hcz⟩
      have hq : text (c :: q) = [] := List.takeWhile_cons_of_neg (by simpa using hcz)
      rw [hq, List.append_nil, hpiece, components_ended (by exact hcz)]
      rfl

theorem headD_dropSlashes (path : List UInt8) : (path.dropWhile (· = slash)).headD 0 ≠ slash := by
  induction path with
  | nil => decide
  | cons c path ih =>
    by_cases hc : c = slash
    · rw [List.dropWhile_cons_of_pos (by simpa using hc)]
      exact ih
    · rw [List.dropWhile_cons_of_neg (by simpa using hc)]
      exact hc

theorem skipelem_none (h : skipelem path = none) : components path = [] := by
  unfold skipelem at h
  dsimp only at h
  split at h
  · rename_i hz
    rw [← components_dropSlashes]
    exact components_ended hz
  · cases h

theorem skipelem_some (h : skipelem path = some (name, rest)) :
    components path = name :: components rest ∧ rest.length < path.length ∧
      rest.headD 0 ≠ slash ∧ nameOf name = name := by
  unfold skipelem at h
  dsimp only at h
  split at h
  · cases h
  · rename_i hz
    set p : UInt8 → Bool := fun c => c ≠ slash ∧ c ≠ 0 with hp
    set q := path.dropWhile (· = slash) with hq
    obtain ⟨rfl, rfl⟩ := Prod.mk.inj (Option.some.inj h)
    have hlen : q.length ≤ path.length := (List.dropWhile_suffix _).length_le
    refine ⟨?_, ?_, headD_dropSlashes _, ?_⟩
    · rw [components_dropSlashes, ← components_dropSlashes path]
      exact components_elem hz (headD_dropSlashes path)
    · have hdrop : ((q.dropWhile p).dropWhile (· = slash)).length ≤ (q.dropWhile p).length :=
        (List.dropWhile_suffix _).length_le
      have hfirst : (q.dropWhile p).length < q.length := by
        cases hcase : q with
        | nil =>
          rw [hcase] at hz
          exact absurd rfl hz
        | cons c l =>
          have hs := headD_dropSlashes path
          rw [← hq, hcase] at hs
          rw [hcase] at hz
          have hc : p c = true := by simpa [hp] using And.intro hs hz
          rw [List.dropWhile_cons_of_pos hc]
          exact Nat.lt_succ_of_le (List.dropWhile_suffix _).length_le
      omega
    · have hzero : ∀ c ∈ (q.takeWhile p).take dirSiz, c ≠ 0 := fun c hc => by
        have hin := List.mem_takeWhile_imp (List.mem_of_mem_take hc)
        exact (by simpa [hp] using hin : c ≠ slash ∧ c ≠ 0).2
      unfold nameOf
      rw [List.take_take, Nat.min_self, List.takeWhile_eq_self_iff.mpr fun c hc => by
        simpa using hzero c hc]

/-- Repeated calls of `skipelem` give the components, and end. -/
theorem pathElems_eq_components (h : path.length ≤ fuel) :
    pathElems fuel path = components path := by
  induction fuel generalizing path with
  | zero =>
    rw [List.length_eq_zero_iff.mp (Nat.le_zero.mp h)]
    rfl
  | succ fuel ih =>
    rw [pathElems]
    cases hskip : skipelem path with
    | none => exact (skipelem_none hskip).symm
    | some r =>
      obtain ⟨name, rest⟩ := r
      obtain ⟨hcomp, hlt, -, -⟩ := skipelem_some hskip
      rw [hcomp]
      exact congrArg (name :: ·) (ih (by omega))

/-- The pointer that `skipelem` returns is at the end of the path exactly if there are no more
components. -/
theorem ended_iff (h : path.headD 0 ≠ slash) : path.headD 0 = 0 ↔ components path = [] := by
  constructor
  · exact components_ended
  · intro hnil
    by_contra hz
    rw [components_elem hz h] at hnil
    cases hnil

/-! ## The name buffer -/

/-- `skipelem` with the buffer `name` of `DIRSIZ` bytes it copies into: a name that fills the
buffer is left without a zero, and behind the zero of a shorter one the old bytes stay. -/
def skipelemInto (path name : List UInt8) : Option (List UInt8 × List UInt8) :=
  let s := path.dropWhile (· = slash)
  if s.headD 0 = 0 then none
  else
    let len := (s.takeWhile fun c => c ≠ slash ∧ c ≠ 0).length
    let path := s.dropWhile fun c => c ≠ slash ∧ c ≠ 0
    let name := if dirSiz ≤ len then s.take dirSiz else s.take len ++ 0 :: name.drop (len + 1)
    some (name, path.dropWhile (· = slash))

def names : Nat → List UInt8 → List UInt8 → List (List UInt8)
  | 0, _, _ => []
  | fuel + 1, path, name =>
      match skipelemInto path name with
      | none => []
      | some (name, path) => nameOf name :: names fuel path name

theorem take_takeWhile_length {α : Type} (p : α → Bool) (l : List α) :
    l.take (l.takeWhile p).length = l.takeWhile p :=
  (List.prefix_iff_eq_take.mp (List.takeWhile_prefix p)).symm

/-- What is read from the buffer is the element, whatever was in the buffer before. -/
theorem skipelemInto_eq (path name : List UInt8) :
    (skipelemInto path name).map (fun r => (nameOf r.1, r.2)) = skipelem path := by
  unfold skipelemInto skipelem
  dsimp only
  split
  · rfl
  · set q := path.dropWhile (· = slash) with hq
    set p : UInt8 → Bool := fun c => c ≠ slash ∧ c ≠ 0 with hp
    have hin : ∀ c ∈ q.takeWhile p, c ≠ 0 := fun c hc => by
      have hc := List.mem_takeWhile_imp hc
      exact (by simpa [hp] using hc : c ≠ slash ∧ c ≠ 0).2
    rw [Option.map_some]
    congr 2
    split
    · rename_i hlen
      have htake : q.take dirSiz = (q.takeWhile p).take dirSiz := by
        rw [← take_takeWhile_length p q, List.take_take, Nat.min_eq_left hlen]
      dsimp only
      unfold nameOf
      rw [List.take_take, Nat.min_self, htake, List.takeWhile_eq_self_iff.mpr fun c hc => by
        simpa using hin c (List.mem_of_mem_take hc)]
    · rename_i hlen
      have hshort : (q.takeWhile p).length < dirSiz := Nat.lt_of_not_le hlen
      dsimp only
      unfold nameOf
      rw [take_takeWhile_length, takeWhile_take, List.takeWhile_append_of_pos fun c hc => by
        simpa using hin c hc]
      simp

theorem names_eq_components (h : path.length ≤ fuel) :
    names fuel path name = components path := by
  rw [← pathElems_eq_components h]
  clear h
  induction fuel generalizing path name with
  | zero => rfl
  | succ fuel ih =>
    rw [names, pathElems, ← skipelemInto_eq path name]
    cases skipelemInto path name with
    | none => rfl
    | some r => exact congrArg (nameOf r.1 :: ·) ih

/-! ## `namex` with its pointer and its buffer -/

def namexLoop (parent : Bool) :
    Nat → Nat → List UInt8 → List UInt8 → FsProg (Option (Nat × List UInt8))
  | 0, _, _, _ => pure none
  | fuel + 1, ip, path, name =>
      match skipelemInto path name with
      | none =>
          if parent then do
            iput ip
            return none
          else return some (ip, name)
      | some (name, path) => do
          ilock ip
          let i ← inode ip
          if i.din.type ≠ tDir then do
            iunlockput ip
            return none
          else if parent ∧ path.headD 0 = 0 then do
            iunlock ip
            return some (ip, name)
          else do
            match ← dirlookup ip name with
            | none => do
                iunlockput ip
                return none
            | some (next, _) => do
                iunlockput ip
                namexLoop parent fuel next path name

/-- `namex` with the buffer `name`; every call of `skipelem` moves the pointer on. -/
def namexInto (cwd : Nat) (path : List UInt8) (parent : Bool) (name : List UInt8) :
    FsProg (Option (Nat × List UInt8)) := do
  let ip ← if path.headD 0 = slash then iget rootIno else idup cwd
  namexLoop parent (path.length + 1) ip path name

def handed (parent : Bool) (r : Nat × List UInt8) : Nat × List UInt8 :=
  (r.1, if parent then nameOf r.2 else [])

/-- Only what `namecmp` reads of a name matters. -/
theorem dirlookup_congr (dp : Nat) (h : nameOf a = nameOf b) : dirlookup dp a = dirlookup dp b := by
  have hcmp : ∀ x, namecmpEq a x = namecmpEq b x := fun x => by
    rw [Bool.eq_iff_iff, namecmpEq_iff, namecmpEq_iff, h]
  have hfrom : ∀ size fuel off,
    dirlookupFrom dp a size fuel off = dirlookupFrom dp b size fuel off := by
    intro size fuel
    induction fuel with
    | zero => exact fun _ => rfl
    | succ fuel ih =>
      intro off
      simp only [dirlookupFrom, hcmp, ih]
  simp only [dirlookup, hfrom]

theorem namexLoop_eq (parent : Bool) (ip : Nat) (h : path.length < fuel) :
    Option.map (handed parent) <$> namexLoop parent fuel ip path name =
      namexFrom parent ip (components path) := by
  induction fuel generalizing ip path name with
  | zero => omega
  | succ fuel ih =>
    rw [namexLoop]
    cases hinto : skipelemInto path name with
    | none =>
      have hskip := skipelemInto_eq path name
      rw [hinto] at hskip
      rw [skipelem_none hskip.symm, namexFrom]
      cases parent <;> simp [handed]
    | some r =>
      obtain ⟨buf, rest⟩ := r
      have hskip := skipelemInto_eq path name
      rw [hinto] at hskip
      obtain ⟨hcomp, hlt, hslash, hname⟩ := skipelem_some hskip.symm
      have hend : (parent = true ∧ rest.headD 0 = 0) = (parent = true ∧ components rest = []) := by
        rw [ended_iff hslash]
      rw [hcomp, namexFrom]
      simp only [hend, dirlookup_congr ip (b := nameOf buf) hname.symm, map_bind]
      congr 1
      funext _
      congr 1
      funext i
      split
      · simp
      · split
        · rename_i hlast
          simp [handed, hlast.1]
        · rw [map_bind]
          congr 1
          funext found
          cases found with
          | none => simp
          | some e =>
            simp only [map_bind]
            congr 1
            funext _
            exact ih e.1 (Nat.lt_of_lt_of_le hlt (Nat.le_of_lt_succ h))

/-- `namex` is the walk over the components. -/
theorem namexInto_eq (cwd : Nat) (path : List UInt8) (parent : Bool) (name : List UInt8) :
    Option.map (handed parent) <$> namexInto cwd path parent name = namex cwd path parent := by
  have hloop : ∀ ip, Option.map (handed parent) <$>
    namexLoop parent (path.length + 1) ip path name =
      namexFrom parent ip (pathElems path.length path) := fun ip => by
    rw [pathElems_eq_components (Nat.le_refl _)]
    exact namexLoop_eq parent ip (Nat.lt_succ_self _)
  unfold namexInto namex
  dsimp only
  split <;> simp only [map_bind, hloop]

end

end Xv6.Fs
