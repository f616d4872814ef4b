import Xv6.Kernel.Log.Protocol
import Mathlib.Algebra.BigOperators.Group.Finset.Basic
import Mathlib.Algebra.Order.BigOperators.Ring.Finset
import Mathlib.Data.Finset.Dedup
import Mathlib.Tactic.IntervalCases

/-! # What one transaction contains

The history of a schedule since the last commit determines the header: the
recorded blocks are those the history logged, and once a commit starts the
history consists of whole operations. The second half settles when the capacity
test of `log_write` can fail.
-/

namespace Xv6.LogProtocol

/-! ## The history of the current transaction -/

def isCommit : Ev → Bool
  | .commit _ => true
  | _ => false

/-- The events after the last `commit` of a schedule. -/
def txn (evs : List Ev) : List Ev :=
  evs.foldl (fun acc e => if isCommit e then [] else acc ++ [e]) []

theorem txn_snoc (evs : List Ev) (e : Ev) :
    txn (evs ++ [e]) = if isCommit e then [] else txn evs ++ [e] := by
  simp [txn]

/-- The history a schedule keeps is its final segment. -/
theorem txn_suffix (evs : List Ev) : ∃ old, evs = old ++ txn evs := by
  induction evs using List.reverseRecOn with
  | nil => exact ⟨[], rfl⟩
  | append_singleton evs e ih =>
      rw [txn_snoc]
      split
      · exact ⟨evs ++ [e], by simp⟩
      · obtain ⟨old, h⟩ := ih
        refine ⟨old, ?_⟩
        rw [← List.append_assoc, ← h]

def blockOf : Ev → Option Nat
  | .logWrite _ b => some b
  | _ => none

def logged (evs : List Ev) : List Nat :=
  evs.filterMap blockOf

def byProcess (q : Nat) (evs : List Ev) : List Ev :=
  evs.filter fun
    | .beginOp p => p = q
    | .logWrite p _ => p = q
    | .endOp p => p = q
    | _ => false

def operation (q : Nat) (bs : List Nat) : List Ev :=
  .beginOp q :: bs.map (.logWrite q) ++ [.endOp q]

def WholeOps (q : Nat) (evs : List Ev) : Prop :=
  ∃ ops : List (List Nat), evs = ops.flatMap (operation q)

/-- Whole operations followed by one that has not reached its `end_op`. -/
def OpenOp (q : Nat) (evs : List Ev) : Prop :=
  ∃ (done : List Ev) (bs : List Nat), WholeOps q done ∧
    evs = done ++ .beginOp q :: bs.map (.logWrite q)

theorem WholeOps.nil (q : Nat) : WholeOps q [] := ⟨[], rfl⟩

theorem WholeOps.beginOp {q : Nat} {evs : List Ev} (h : WholeOps q evs) :
    OpenOp q (evs ++ [.beginOp q]) :=
  ⟨evs, [], h, rfl⟩

theorem OpenOp.logWrite {q : Nat} {evs : List Ev} (h : OpenOp q evs) (b : Nat) :
    OpenOp q (evs ++ [.logWrite q b]) := by
  obtain ⟨done, bs, hd, rfl⟩ := h
  exact ⟨done, bs ++ [b], hd, by simp⟩

theorem OpenOp.endOp {q : Nat} {evs : List Ev} (h : OpenOp q evs) :
    WholeOps q (evs ++ [.endOp q]) := by
  obtain ⟨done, bs, ⟨ops, rfl⟩, rfl⟩ := h
  exact ⟨ops ++ [bs], by simp [operation]⟩

/-- What the history says about a state reached without a panic. -/
structure History (evs : List Ev) (s : Sys) : Prop where
  blocks : ∀ b, b ∈ s.log.lh.blocks ↔ b ∈ logged (txn evs)
  inside : ∀ q, s.pc q = .inOp → OpenOp q (byProcess q (txn evs))
  outside : ∀ q, s.pc q ≠ .inOp → WholeOps q (byProcess q (txn evs))

theorem History.init (nlog : Nat) : History [] (init nlog) := by
  constructor
  · intro b
    simp [LogProtocol.init, initLog, LogHeader.blocks, txn, logged]
  · intro q hq
    cases hq
  · intro q _
    exact WholeOps.nil q

/-- An event that moves `p` between places outside an operation and logs nothing. -/
theorem History.move {evs : List Ev} {s : Sys} {e : Ev} {g : Log} {p : Nat} {l : Pc}
    (h : History evs s) (hp : s.pc p ≠ .inOp) (hl : l ≠ .inOp) (hg : g.lh = s.log.lh)
    (he : isCommit e = false) (hb : blockOf e = none)
    (hq : ∀ q, byProcess q (txn (evs ++ [e])) = byProcess q (txn evs)) :
    History (evs ++ [e]) (s.goto g p l) := by
  constructor
  · intro b
    rw [goto_log, hg, h.blocks b, txn_snoc, he]
    simp [logged, hb]
  · intro q
    rw [goto_pc, hq]
    split
    · intro hq
      exact absurd hq hl
    · exact h.inside q
  · intro q
    rw [goto_pc, hq]
    split
    · rename_i hqp
      subst hqp
      intro _
      exact h.outside q hp
    · exact h.outside q

theorem byProcess_snoc (q : Nat) (evs : List Ev) (e : Ev) (he : isCommit e = false) :
    byProcess q (txn (evs ++ [e])) = byProcess q (txn evs) ++ byProcess q [e] := by
  rw [txn_snoc, he]
  simp [byProcess]

theorem History.step {evs : List Ev} {s s' : Sys} {S : Finset Nat} {e : Ev} (h : History evs s)
    (hi : Inv s S) (hs : Steps s e s') (hp' : s'.panic = none) : History (evs ++ [e]) s' := by
  cases hs with
  | @sleep p hp _ =>
      exact h.move (outside_not_inOp hp) (by simp) rfl rfl rfl
        (fun q => by rw [byProcess_snoc q evs _ rfl]; simp [byProcess])
  | @beginOp p hp _ _ =>
      constructor
      · intro b
        rw [goto_log, h.blocks b, txn_snoc]
        simp [isCommit, logged, blockOf]
      · intro q hq
        rw [byProcess_snoc q evs _ rfl]
        by_cases hqp : q = p
        · subst hqp
          simpa [byProcess] using (h.outside q (outside_not_inOp hp)).beginOp
        · rw [goto_pc, if_neg hqp] at hq
          simpa [byProcess, Ne.symm hqp] using h.inside q hq
      · intro q hq
        rw [byProcess_snoc q evs _ rfl]
        by_cases hqp : q = p
        · exact absurd (by rw [goto_pc, if_pos hqp]) hq
        · rw [goto_pc, if_neg hqp] at hq
          simpa [byProcess, Ne.symm hqp] using h.outside q hq
  | @logWrite p b log pin hp hw =>
      constructor
      · intro c
        have hc := h.blocks c
        rw [txn_snoc]
        simp only [isCommit, Bool.false_eq_true, if_false, logged, List.filterMap_append,
          List.filterMap_cons, blockOf, List.filterMap_nil, List.mem_append,
          List.mem_singleton]
        rw [show List.filterMap blockOf (txn evs) = logged (txn evs) from rfl, ← hc]
        obtain ⟨_, _, _, ⟨hb, rfl, _⟩ | ⟨_, _, rfl⟩⟩ := Log.logWrite_ok hw
        · constructor
          · exact .inl
          · rintro (hc | rfl)
            · exact hc
            · exact hb
        · rw [Log.blocks_append]
          simp
      · intro q hq
        rw [byProcess_snoc q evs _ rfl]
        by_cases hqp : q = p
        · subst hqp
          simpa [byProcess] using (h.inside q hq).logWrite b
        · simpa [byProcess, Ne.symm hqp] using h.inside q hq
      · intro q hq
        rw [byProcess_snoc q evs _ rfl]
        have hqp : p ≠ q := by
          rintro rfl
          exact hq hp
        simpa [byProcess, hqp] using h.outside q hq
  | logWriteStop _ _ => cases hp'
  | @endLast p hp _ _ =>
      constructor
      · intro b
        rw [goto_log, txn_snoc]
        simpa [isCommit, logged, blockOf] using h.blocks b
      · intro q hq
        rw [goto_pc] at hq
        split at hq
        · cases hq
        · rename_i hqp
          rw [byProcess_snoc q evs _ rfl]
          simpa [byProcess, Ne.symm hqp] using h.inside q hq
      · intro q hq
        rw [byProcess_snoc q evs _ rfl]
        by_cases hqp : q = p
        · subst hqp
          simpa [byProcess] using (h.inside q hp).endOp
        · rw [goto_pc, if_neg hqp] at hq
          simpa [byProcess, Ne.symm hqp] using h.outside q hq
  | @endOp p hp _ _ =>
      constructor
      · intro b
        rw [goto_log, txn_snoc]
        simpa [isCommit, logged, blockOf] using h.blocks b
      · intro q hq
        rw [goto_pc] at hq
        split at hq
        · cases hq
        · rename_i hqp
          rw [byProcess_snoc q evs _ rfl]
          simpa [byProcess, Ne.symm hqp] using h.inside q hq
      · intro q hq
        rw [byProcess_snoc q evs _ rfl]
        by_cases hqp : q = p
        · subst hqp
          simpa [byProcess] using (h.inside q hp).endOp
        · rw [goto_pc, if_neg hqp] at hq
          simpa [byProcess, Ne.symm hqp] using h.outside q hq
  | endStop _ _ => cases hp'
  | @commit p hp =>
      have hS := hi.quiet (hi.committing.mpr ⟨p, .inl hp⟩)
      constructor
      · intro b
        rw [txn_snoc]
        simp [isCommit, logged, Log.clear, LogHeader.blocks]
      · intro q hq
        rw [goto_pc] at hq
        split at hq
        · cases hq
        · have hm := (hi.inOp q).mp hq
          simp [hS] at hm
      · intro q _
        rw [txn_snoc]
        exact WholeOps.nil q
  | @finish p hp =>
      exact h.move (by simp [hp]) (by simp) rfl rfl rfl
        (fun q => by rw [byProcess_snoc q evs _ rfl]; simp [byProcess])

theorem Run.history {nlog : Nat} {evs : List Ev} {s : Sys} (h : Run nlog evs s)
    (hp : s.panic = none) : History evs s := by
  induction h with
  | nil => exact History.init nlog
  | snoc hr hp₀ hs ih =>
      obtain ⟨S, hS⟩ := hr.inv
      exact (ih hp₀).step hS (steps_of_step hs) hp

/-- A panicked kernel stopped inside some operation. -/
theorem Run.inOp_of_panic {nlog : Nat} {evs : List Ev} {s : Sys} (h : Run nlog evs s)
    (hp : s.panic ≠ none) : ∃ p, s.pc p = .inOp := by
  cases h with
  | nil => exact absurd rfl hp
  | snoc _ hp₀ hs =>
      cases steps_of_step hs with
      | logWriteStop hq _ => exact ⟨_, hq⟩
      | endStop hq _ => exact ⟨_, hq⟩
      | _ => exact absurd hp₀ hp

/-- While `commit` runs no operation is in progress and none can log a block; what
it commits is the work of whole operations, and the two panics that guard this
never happen. -/
theorem commit_runs_alone {nlog : Nat} {evs : List Ev} {s : Sys} (h : Run nlog evs s) :
    s.panic ≠ some "log.committing" ∧ s.panic ≠ some "log_write outside of trans" ∧
    s.log.lh.blocks.Nodup ∧
    (∀ p, s.commits p → s.log.outstanding = 0 ∧ s.log.committing = true ∧
      (∀ q, s.pc q ≠ .inOp) ∧ ∀ q b, step s (.logWrite q b) = none) ∧
    (∀ p, s.pc p = .commit → (∃ old, evs = old ++ txn evs) ∧
      (∀ b, b ∈ s.log.lh.blocks ↔ b ∈ logged (txn evs)) ∧
      ∀ q, WholeOps q (byProcess q (txn evs))) := by
  obtain ⟨S, hi⟩ := h.inv
  have hquiet : ∀ p, s.commits p → S = ∅ := fun p hp => hi.quiet (hi.committing.mpr ⟨p, hp⟩)
  have hnone : ∀ p, s.commits p → ∀ q, s.pc q ≠ .inOp := by
    intro p hp q hq
    have hm := (hi.inOp q).mp hq
    simp [hquiet p hp] at hm
  refine ⟨?_, ?_, hi.nodup, ?_, ?_⟩
  · rcases hi.panic with hp | hp <;> simp [hp]
  · rcases hi.panic with hp | hp <;> simp [hp]
  · intro p hp
    refine ⟨?_, hi.committing.mpr ⟨p, hp⟩, hnone p hp, ?_⟩
    · rw [hi.outstanding, hquiet p hp]
      rfl
    · intro q b
      simp [step, hnone p hp q]
  · intro p hp
    have hpanic : s.panic = none := by
      by_contra hne
      obtain ⟨q, hq⟩ := h.inOp_of_panic hne
      exact hnone p (.inl hp) q hq
    have hh := h.history hpanic
    exact ⟨txn_suffix evs, hh.blocks, fun q => hh.outside q (hnone p (.inl hp) q)⟩

/-- Two operations share a transaction, a third process sleeps, and the last
`end_op` starts the commit. -/
def sharedCommit : List Ev :=
  [.beginOp 0, .beginOp 1, .logWrite 0 40, .logWrite 1 41, .logWrite 1 40, .endOp 0, .endOp 1,
    .sleep 2]

theorem exec_get {nlog : Nat} {evs : List Ev} (h : (exec (init nlog) evs).isSome) :
    Run nlog evs ((exec (init nlog) evs).get h) :=
  Run.of_exec (Option.some_get h).symm

theorem commit_runs_alone_shared :
    ∃ s, Run mkfsNlog sharedCommit s ∧ s.pc 1 = .commit ∧ s.log.lh.blocks = [40, 41] ∧
      s.panic ≠ some "log.committing" :=
  have hx : (exec (init mkfsNlog) sharedCommit).isSome := rfl
  ⟨_, exec_get hx, rfl, rfl, (commit_runs_alone (exec_get hx)).1⟩

/-! ## Room in the log -/

def opBlocks (q : Nat) (evs : List Ev) : List Nat :=
  evs.foldl (fun acc e =>
    match e with
    | .beginOp p => if p = q then [] else acc
    | .logWrite p b => if p = q then acc.insert b else acc
    | _ => acc) []

/-- No operation of the schedule logs more than `k` distinct blocks. -/
def OpsWithin (k : Nat) (evs : List Ev) : Prop :=
  ∀ pre, pre <+: evs → ∀ q, (opBlocks q pre).length ≤ k

/-- Every `log_write` finds fewer than `log.size - 1` distinct blocks logged since
the last commit. -/
def Roomy (evs : List Ev) : Prop :=
  ∀ pre p b, pre ++ [.logWrite p b] <+: evs → (logged (txn pre)).toFinset.card < mkfsNlog - 1

theorem Run.size {nlog : Nat} {evs : List Ev} {s : Sys} (h : Run nlog evs s) :
    s.log.size = nlog := by
  induction h with
  | nil => rfl
  | snoc _ _ hs ih =>
      cases steps_of_step hs with
      | logWrite _ hw =>
          obtain ⟨_, _, _, ⟨_, rfl, _⟩ | ⟨_, _, rfl⟩⟩ := Log.logWrite_ok hw <;> exact ih
      | _ => exact ih

/-- `log.lh.n` counts the distinct blocks logged since the last commit. -/
theorem Run.card_logged {nlog : Nat} {evs : List Ev} {s : Sys} (h : Run nlog evs s)
    (hp : s.panic = none) : (logged (txn evs)).toFinset.card = s.log.lh.n := by
  obtain ⟨S, hi⟩ := h.inv
  have hset : (logged (txn evs)).toFinset = s.log.lh.blocks.toFinset := by
    ext b
    simp [(h.history hp).blocks b]
  rw [hset, List.toFinset_card_of_nodup hi.nodup, LogHeader.blocks_length]

theorem prefix_snoc {l l' : List Ev} {e e' : Ev} (h : l ++ [e] <+: l' ++ [e']) :
    l ++ [e] <+: l' ∨ (l = l' ∧ e = e') := by
  rcases List.prefix_concat_iff.mp (by simpa using h) with heq | hpre
  · right
    exact ⟨List.append_inj_left' heq rfl, by simpa using List.append_inj_right' heq rfl⟩
  · exact .inl hpre

theorem Run.panic_iff {evs : List Ev} {s : Sys} (h : Run mkfsNlog evs s) :
    s.panic = none ↔ Roomy evs := by
  induction h with
  | nil =>
      refine ⟨?_, fun _ => rfl⟩
      intro _ pre p b hpre
      simpa using hpre.length_le
  | @snoc evs s s' e hr hp₀ hs ih =>
      have hroomy := ih.mp hp₀
      have hcard := hr.card_logged hp₀
      have hsize := hr.size
      have hnew : Roomy (evs ++ [e]) ↔
          ∀ p b, e = .logWrite p b → s.log.lh.n < mkfsNlog - 1 := by
        constructor
        · rintro hro p b rfl
          rw [← hcard]
          exact hro evs p b (List.prefix_refl _)
        · intro hlast pre p b hpre
          rcases prefix_snoc hpre with hold | ⟨rfl, he⟩
          · exact hroomy pre p b hold
          · rw [hcard]
            exact hlast p b he.symm
      rw [hnew]
      obtain ⟨S, hi⟩ := hr.inv
      cases steps_of_step hs with
      | @logWrite p b log pin hq hw =>
          obtain ⟨hn, hn', _⟩ := Log.logWrite_ok hw
          simp only [hp₀, true_iff]
          intro p' b' _
          simp only [mkfsNlog] at hsize ⊢
          omega
      | @logWriteStop p b m hq hw =>
          simp only [reduceCtorEq, false_iff, not_forall]
          refine ⟨p, b, rfl, ?_⟩
          have ho := (hi.of_inOp hq).2
          unfold Log.logWrite at hw
          split at hw
          · simp only [mkfsNlog] at hsize ⊢
            omega
          · rw [if_neg (by omega)] at hw
            dsimp only at hw
            split at hw <;> cases hw
      | endStop hq hc =>
          rw [(hi.of_inOp hq).1] at hc
          cases hc
      | _ => simpa using hp₀

/-! ### Operations below the reservation -/

theorem opBlocks_snoc (q : Nat) (evs : List Ev) (e : Ev) :
    opBlocks q (evs ++ [e]) =
      match e with
      | .beginOp p => if p = q then [] else opBlocks q evs
      | .logWrite p b => if p = q then (opBlocks q evs).insert b else opBlocks q evs
      | _ => opBlocks q evs := by
  simp only [opBlocks, List.foldl_append, List.foldl_cons, List.foldl_nil]

/-- The reservation invariant: what is recorded plus what the running operations
may still add leaves two slots of the header unused. -/
structure Reserved (k : Nat) (evs : List Ev) (s : Sys) (S : Finset Nat) : Prop where
  recorded : ∀ q ∈ S, ∀ b ∈ opBlocks q evs, b ∈ s.log.lh.blocks
  within : s.log.lh.n + ∑ q ∈ S, (k - (opBlocks q evs).length) ≤ logSize - 2

theorem Reserved.of_same {k : Nat} {evs : List Ev} {s s' : Sys} {S : Finset Nat} {e : Ev}
    (h : Reserved k evs s S) (hlh : s'.log.lh = s.log.lh)
    (hop : ∀ q, opBlocks q (evs ++ [e]) = opBlocks q evs) : Reserved k (evs ++ [e]) s' S := by
  constructor
  · intro q hq b hb
    rw [hlh]
    exact h.recorded q hq b (hop q ▸ hb)
  · simp only [hlh, hop]
    exact h.within

theorem Reserved.beginOp {k : Nat} {evs : List Ev} {s : Sys} {S : Finset Nat} {p : Nat}
    (h : Reserved k evs s S) (hi : Inv s S) (hk : k < maxOpBlocks) (hp : s.outside p)
    (hc : s.log.committing = false)
    (hr : (s.log.lh.n : Int) + (s.log.outstanding + 1) * maxOpBlocks ≤ logSize) :
    Reserved k (evs ++ [.beginOp p])
      (s.goto { s.log with outstanding := s.log.outstanding + 1 } p .inOp) (insert p S) := by
  have hS : p ∉ S := hi.not_mem (outside_not_inOp hp)
  have hne : ∀ q ∈ S, opBlocks q (evs ++ [.beginOp p]) = opBlocks q evs := by
    intro q hq
    have hpq : p ≠ q := fun heq => hS (heq ▸ hq)
    simp [opBlocks_snoc, hpq]
  have hp' : opBlocks p (evs ++ [.beginOp p]) = [] := by simp [opBlocks_snoc]
  constructor
  · intro q hq b hb
    rcases Finset.mem_insert.mp hq with rfl | hq
    · rw [hp'] at hb
      cases hb
    · exact h.recorded q hq b (hne q hq ▸ hb)
  · rw [Finset.sum_insert hS, hp', Finset.sum_congr rfl fun q hq => by rw [hne q hq]]
    have hsum : ∑ q ∈ S, (k - (opBlocks q evs).length) ≤ S.card * k := by
      calc ∑ q ∈ S, (k - (opBlocks q evs).length) ≤ ∑ _q ∈ S, k :=
            Finset.sum_le_sum fun q _ => Nat.sub_le _ _
        _ = S.card * k := by simp
    have ho := hi.outstanding
    simp only [goto_log, List.length_nil]
    rw [ho] at hr
    -- alone in the log, the operation finds it empty; otherwise each of the at least two
    -- admitted operations leaves one block of its reservation unused
    rcases S.eq_empty_or_nonempty with rfl | hne
    · have hn := hi.empty rfl hc
      simp only [Finset.sum_empty, logSize, maxOpBlocks] at *
      omega
    · have hcard := Finset.card_pos.mpr hne
      have hmul : S.card * k ≤ S.card * 9 := Nat.mul_le_mul_left _
        (by simp only [maxOpBlocks] at hk; omega)
      simp only [logSize, maxOpBlocks] at *
      omega

theorem Reserved.logWrite {k : Nat} {evs : List Ev} {s : Sys} {S : Finset Nat} {p b : Nat}
    {log : Log} {pin : Bool} (h : Reserved k evs s S) (hi : Inv s S)
    (hw : s.log.logWrite b = .ok (log, pin)) (hp : s.pc p = .inOp)
    (hle : (opBlocks p (evs ++ [.logWrite p b])).length ≤ k) :
    Reserved k (evs ++ [.logWrite p b]) { s with log := log } S := by
  have hpS : p ∈ S := (hi.inOp p).mp hp
  have hne : ∀ q ∈ S.erase p, opBlocks q (evs ++ [.logWrite p b]) = opBlocks q evs := by
    intro q hq
    have hpq : p ≠ q := (Finset.ne_of_mem_erase hq).symm
    simp [opBlocks_snoc, hpq]
  have hp' : opBlocks p (evs ++ [.logWrite p b]) = (opBlocks p evs).insert b := by
    simp [opBlocks_snoc]
  have hmono : ∀ c ∈ s.log.lh.blocks, c ∈ log.lh.blocks := by
    intro c hc
    obtain ⟨_, _, _, ⟨_, rfl, _⟩ | ⟨_, _, rfl⟩⟩ := Log.logWrite_ok hw
    · exact hc
    · rw [Log.blocks_append]
      exact List.mem_append_left _ hc
  have hb : b ∈ log.lh.blocks := by
    obtain ⟨_, _, _, ⟨hb, rfl, _⟩ | ⟨_, _, rfl⟩⟩ := Log.logWrite_ok hw
    · exact hb
    · rw [Log.blocks_append]
      simp
  constructor
  · intro q hq c hc
    by_cases hqp : q = p
    · subst hqp
      rw [hp', List.mem_insert_iff] at hc
      rcases hc with rfl | hc
      · exact hb
      · exact hmono c (h.recorded q hq c hc)
    · exact hmono c (h.recorded q hq c (hne q (Finset.mem_erase.mpr ⟨hqp, hq⟩) ▸ hc))
  · have hsplit := Finset.add_sum_erase S (fun q => k - (opBlocks q evs).length) hpS
    have hsplit' :=
      Finset.add_sum_erase S (fun q => k - (opBlocks q (evs ++ [.logWrite p b])).length) hpS
    rw [Finset.sum_congr rfl fun q hq => by rw [hne q hq]] at hsplit'
    have hwithin := h.within
    rw [← hsplit'] 
    rw [← hsplit] at hwithin
    rw [hp'] at hle ⊢
    dsimp only at hwithin ⊢
    obtain ⟨_, _, _, ⟨_, rfl, _⟩ | ⟨hnew, _, rfl⟩⟩ := Log.logWrite_ok hw
    · have hlen : (opBlocks p evs).length ≤ ((opBlocks p evs).insert b).length :=
        List.length_le_length_insert
      omega
    · have hfresh : b ∉ opBlocks p evs := fun hm => hnew (h.recorded p hpS b hm)
      rw [List.length_insert_of_not_mem hfresh] at hle ⊢
      dsimp only
      omega

theorem Reserved.endOp {k : Nat} {evs : List Ev} {s s' : Sys} {S : Finset Nat} {p : Nat}
    (h : Reserved k evs s S) (hlh : s'.log.lh = s.log.lh) :
    Reserved k (evs ++ [.endOp p]) s' (S.erase p) := by
  have hop : ∀ q, opBlocks q (evs ++ [.endOp p]) = opBlocks q evs := by
    intro q
    simp [opBlocks_snoc]
  have hs := h.of_same hlh hop
  refine ⟨fun q hq => hs.recorded q (Finset.mem_of_mem_erase hq), ?_⟩
  have hsub := Finset.sum_le_sum_of_subset (f := fun q =>
    k - (opBlocks q (evs ++ [.endOp p])).length)
    (Finset.erase_subset p S)
  have := hs.within
  omega

theorem Reserved.empty {k : Nat} {evs : List Ev} {s : Sys} (hn : s.log.lh.n ≤ logSize - 2) :
    Reserved k evs s ∅ := by
  refine ⟨fun q hq => by simp at hq, ?_⟩
  simpa using hn

theorem OpsWithin.mono {k k' : Nat} {evs : List Ev} (h : OpsWithin k evs) (hk : k ≤ k') :
    OpsWithin k' evs :=
  fun pre hpre q => Nat.le_trans (h pre hpre q) hk

/-- Operations that leave one block of their reservation unused never run out of log. -/
theorem Run.reserved {k : Nat} {evs : List Ev} {s : Sys} (hk : k < maxOpBlocks)
    (h : Run mkfsNlog evs s) (hw : OpsWithin k evs) :
    s.panic = none ∧ ∃ S, Inv s S ∧ Reserved k evs s S := by
  induction h with
  | nil => exact ⟨rfl, ∅, Inv.init _, Reserved.empty (by decide)⟩
  | @snoc evs s s' e hr hp₀ hs ih =>
      obtain ⟨_, S, hi, hres⟩ := ih fun pre hpre => hw pre (hpre.trans (List.prefix_append _ _))
      have hlt : s.log.lh.n ≤ logSize - 2 := Nat.le_trans (Nat.le_add_right _ _) hres.within
      have hlast := hw (evs ++ [e]) (List.prefix_refl _)
      cases steps_of_step hs with
      | sleep hp _ =>
          exact ⟨hp₀, S, hi.sleep hp, hres.of_same rfl fun q => by simp [opBlocks_snoc]⟩
      | beginOp hp hc hroom =>
          exact ⟨hp₀, _, hi.beginOp hp hc, hres.beginOp hi hk hp hc hroom⟩
      | logWrite hp hwr =>
          exact ⟨hp₀, S, hi.logWrite hp hwr, hres.logWrite hi hwr hp (hlast _)⟩
      | @logWriteStop p b m hp hwr =>
          have hroom := (hr.snoc hp₀ hs).panic_iff.not.mp (by simp)
          refine absurd ?_ hroom
          intro pre p' b' hpre
          rcases prefix_snoc hpre with hold | ⟨rfl, _⟩
          · exact hr.panic_iff.mp hp₀ pre p' b' hold
          · rw [hr.card_logged hp₀]
            simp only [mkfsNlog, logSize, maxOpBlocks] at *
            omega
      | endLast hp _ ho => exact ⟨hp₀, ∅, hi.endLast hp ho, Reserved.empty hlt⟩
      | endOp hp _ ho => exact ⟨hp₀, _, hi.endOp hp ho, hres.endOp rfl⟩
      | endStop hp hc =>
          rw [(hi.of_inOp hp).1] at hc
          cases hc
      | @commit p hp =>
          have hS := hi.quiet (hi.committing.mpr ⟨p, .inl hp⟩)
          subst hS
          exact ⟨hp₀, ∅, hi.commit hp, Reserved.empty (Nat.zero_le _)⟩
      | finish hp =>
          exact ⟨hp₀, S, hi.finish hp, hres.of_same rfl fun q => by simp [opBlocks_snoc]⟩

/-! ### Operations that use the whole reservation -/

/-- Three admitted operations of ten blocks each; the last call is the thirtieth. -/
def fullReservations : List Ev :=
  [.beginOp 0, .beginOp 1, .beginOp 2] ++ (List.range 30).map fun i => .logWrite (i / 10) (100 + i)

def isWriteOf (q : Nat) : Ev → Bool
  | .logWrite p _ => p = q
  | _ => false

theorem opBlocks_length_le (q : Nat) (evs : List Ev) :
    (opBlocks q evs).length ≤ evs.countP (isWriteOf q) := by
  induction evs using List.reverseRecOn with
  | nil => simp [opBlocks]
  | append_singleton evs e ih =>
      rw [opBlocks_snoc, List.countP_append]
      cases e with
      | beginOp p =>
          dsimp only
          split
          · simp
          · simpa [isWriteOf] using ih
      | logWrite p b =>
          by_cases hpq : p = q
          · simp only [hpq, if_true, List.countP_singleton, isWriteOf, decide_true,
              List.length_insert]
            split <;> omega
          · simpa [isWriteOf, hpq] using ih
      | sleep p => simpa [isWriteOf] using ih
      | endOp p => simpa [isWriteOf] using ih
      | commit p => simpa [isWriteOf] using ih
      | finish p => simpa [isWriteOf] using ih

theorem fullReservations_writer {p b : Nat} (h : .logWrite p b ∈ fullReservations) : p < 3 := by
  simp only [fullReservations, List.mem_append, List.mem_cons, List.mem_map, List.mem_range,
    reduceCtorEq, List.not_mem_nil, or_self, false_or, Ev.logWrite.injEq] at h
  obtain ⟨i, hi, hp, _⟩ := h
  omega

theorem fullReservations_within : OpsWithin maxOpBlocks fullReservations := by
  intro pre hpre q
  have hle := opBlocks_length_le q pre
  have hsub : pre.countP (isWriteOf q) ≤ fullReservations.countP (isWriteOf q) :=
    hpre.sublist.countP_le
  have hcount : fullReservations.countP (isWriteOf q) ≤ maxOpBlocks := by
    by_cases hq : q < 3
    · interval_cases q <;> decide
    · rw [List.countP_eq_zero.mpr]
      · exact Nat.zero_le _
      · intro e he hw
        cases e with
        | logWrite p b =>
            have hpq : p = q := by simpa [isWriteOf] using hw
            exact hq (hpq ▸ fullReservations_writer he)
        | _ => simp [isWriteOf] at hw
  omega

theorem fullReservations_exec : (exec (init mkfsNlog) fullReservations).isSome := by decide

theorem fullReservations_panics :
    ((exec (init mkfsNlog) fullReservations).get fullReservations_exec).panic =
      some "too big a transaction" := by decide

/-- Three operations within their reservation, and `log_write` panics. -/
theorem reservation_overflows :
    ¬ ∀ evs s, Run mkfsNlog evs s → OpsWithin maxOpBlocks evs →
      s.panic ≠ some "too big a transaction" := fun h =>
  h fullReservations _ (exec_get fullReservations_exec) fullReservations_within
    fullReservations_panics

/-- A schedule reaches no panic exactly when no `log_write` comes after `log.size - 1`
distinct blocks of its transaction; every schedule of operations of at most `k` blocks is
safe exactly when `k` is below `MAXOPBLOCKS`. -/
theorem reservation_sufficient_iff (evs : List Ev) (k : Nat) :
    (∀ s, Run mkfsNlog evs s →
      (s.panic ≠ some "too big a transaction" ↔ Roomy evs)) ∧
    ((∀ evs s, Run mkfsNlog evs s → OpsWithin k evs →
      s.panic ≠ some "too big a transaction") ↔ k < maxOpBlocks) := by
  have hpanic : ∀ {evs s}, Run mkfsNlog evs s →
      (s.panic ≠ some "too big a transaction" ↔ s.panic = none) := by
    intro evs s h
    obtain ⟨S, hi⟩ := h.inv
    rcases hi.panic with hp | hp <;> simp [hp]
  refine ⟨fun s h => (hpanic h).trans h.panic_iff, fun hall => ?_, fun hk => ?_⟩
  · by_contra hk
    exact hall fullReservations _ (exec_get fullReservations_exec)
      (fullReservations_within.mono (by omega)) fullReservations_panics
  · intro evs s h hw
    exact (hpanic h).mpr (h.reserved hk hw).1

end Xv6.LogProtocol
