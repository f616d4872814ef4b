import Xv6.User.Sh.Sound

/-! # What the parser accepts

From the tokens of a derivation, followed by something that may follow it, the parser returns the
tree of the derivation, unless its count runs out.
-/

namespace Xv6.Sh

open Lib

variable {s : List UInt8} {fuel p : Nat}

/-- The symbols after a line, a pipe or a command. -/
def follows : Nonterm → List Sym
  | .line => [.rparen]
  | .pipe => [.amp, .semi, .rparen]
  | .exec => [.pipe, .amp, .semi, .rparen]

/-- The tokens start with what may follow, or there are none. -/
def Follow (nt : Nonterm) (r : List Token) : Prop := ∀ t ∈ r.head?, ∃ y ∈ follows nt, t = .sym y

/-- The run ends for want of a count. -/
def Spins (e : Stop) (_ : Nat) : Prop := e = .spin

theorem Follow.starts {nt : Nonterm} {r : List Token} {toks : List UInt8} (h : Follow nt r)
    (hno : ∀ y ∈ follows nt, y.char ∉ toks) : starts toks r = false := by
  cases r with
  | nil => rfl
  | cons t r =>
    obtain ⟨y, hy, rfl⟩ := h t rfl
    simpa [Sh.starts] using hno y hy

theorem Follow.mono {nt nt' : Nonterm} {r : List Token} (h : Follow nt r)
    (hsub : ∀ y ∈ follows nt, y ∈ follows nt') : Follow nt' r := by
  intro t ht
  obtain ⟨y, hy, heq⟩ := h t ht
  exact ⟨y, hsub y hy, heq⟩

theorem follow_cons {nt : Nonterm} {y : Sym} (h : y ∈ follows nt) (r : List Token) :
    Follow nt (.sym y :: r) := by
  intro t ht
  exact ⟨y, h, (Option.some.inj ht).symm⟩

/-- Between a pipe and what follows the line there may be any number of `&`. -/
theorem follow_amps {r : List Token} (n : Nat) (h : Follow .pipe r) :
    Follow .pipe (List.replicate n (.sym .amp) ++ r) := by
  cases n with
  | zero => exact h
  | succ n => exact follow_cons (by decide) _

theorem runs_peek_yes {α : Type} {toks : List UInt8} {f : Bool → Code α} {Q : α → Nat → Prop}
    {E : Stop → Nat → Prop} {t : Sym} {ts : List Token} (h0 : 0 ∉ s)
    (htoks : toks ⊆ symbols) (hp : rest s p = .sym t :: ts) (ht : t.char ∈ toks)
    (h : ∀ p', rest s p' = .sym t :: ts → Runs (f true) Q E p') :
    Runs (peek s toks >>= f) Q E p := by
  apply runs_peek h0 htoks
  · intro t' ts' p' hp' _ hrest
    rw [hp] at hp'
    cases hp'
    exact h p' hrest
  · intro p' hst
    rw [hp] at hst
    rw [starts, List.contains_iff_mem.mpr ht] at hst
    cases hst

theorem runs_peek_no {α : Type} {toks : List UInt8} {f : Bool → Code α} {Q : α → Nat → Prop}
    {E : Stop → Nat → Prop} (h0 : 0 ∉ s) (htoks : toks ⊆ symbols)
    (hst : starts toks (rest s p) = false)
    (h : ∀ p', rest s p' = rest s p → Runs (f false) Q E p') :
    Runs (peek s toks >>= f) Q E p := by
  apply runs_peek h0 htoks
  · intro t ts p' hp ht
    rw [hp, starts, List.contains_iff_mem.mpr ht] at hst
    cases hst
  · exact fun p' _ hp' => h p' hp'

theorem runs_word {α : Type} {x : List UInt8} {ts : List Token} {f : Tok × Span → Code α}
    {Q : α → Nat → Prop} {E : Stop → Nat → Prop} (h0 : 0 ∉ s) (hrest : rest s p = .word x :: ts)
    (h : ∀ w p', rest s p' = ts → spanText s w = x → Runs (f (.word, w)) Q E p') :
    Runs (gettoken s >>= f) Q E p := by
  unfold Runs
  rw [Comp.wp_bind]
  exact wp_gettoken_word h0 hrest fun w p' hp' hw _ => h w p' hp' hw

/-! ## Loops -/

theorem parseredirs_complete (h0 : 0 ∉ s) {cmd : Cmd Span} {rs : List Redir} {r : List Token}
    (hp : rest s p = rs.flatMap Redir.tokens ++ r) (hr : starts [60, 62] r = false) :
    Runs (parseredirs s fuel cmd) (fun c p' => rest s p' = r ∧
      c.text s = rs.foldl Redir.wrap (cmd.text s)) Spins p := by
  induction rs generalizing fuel cmd p with
  | nil =>
    cases fuel with
    | zero => exact runs_stop rfl
    | succ fuel =>
      rw [parseredirs]
      rw [List.flatMap_nil, List.nil_append] at hp
      apply runs_peek_no h0 (by decide) (hp ▸ hr)
      intro p' hp'
      exact runs_pure ⟨hp'.trans hp, rfl⟩
  | cons x rs ih =>
    cases fuel with
    | zero => exact runs_stop rfl
    | succ fuel =>
      rw [List.flatMap_cons, List.append_assoc] at hp
      cases x with
      | input file | output file | append file =>
        rw [parseredirs]
        apply runs_peek_yes h0 (by decide) hp (by decide)
        intro p₁ hp₁
        simp only [if_true]
        apply runs_sym h0 hp₁
        intro w₁ p₂ hp₂
        apply runs_word h0 hp₂
        intro w p₃ hp₃ hw
        subst hw
        exact ih hp₃

theorem parseBacks_complete (h0 : 0 ∉ s) {cmd : Cmd Span} {n : Nat} {r : List Token}
    (hp : rest s p = List.replicate n (.sym .amp) ++ r) (hr : starts [38] r = false) :
    Runs (parseBacks s fuel cmd) (fun c p' => rest s p' = r ∧ c.text s = backs n (cmd.text s))
      Spins p := by
  induction n generalizing fuel cmd p with
  | zero =>
    cases fuel with
    | zero => exact runs_stop rfl
    | succ fuel =>
      rw [List.replicate_zero, List.nil_append] at hp
      rw [parseBacks]
      apply runs_peek_no h0 (by decide) (hp ▸ hr)
      intro p' hp'
      exact runs_pure ⟨hp'.trans hp, rfl⟩
  | succ n ih =>
    cases fuel with
    | zero => exact runs_stop rfl
    | succ fuel =>
      rw [List.replicate_succ, List.cons_append] at hp
      rw [parseBacks]
      apply runs_peek_yes h0 (by decide) hp (by decide)
      intro p₁ hp₁
      simp only [if_true]
      apply runs_sym h0 hp₁
      intro w p₂ hp₂
      exact ih hp₂

/-- The redirections before the first word. -/
theorem items_split (items : List Item) : ∃ rs tail, items = List.map Item.redir rs ++ tail ∧
    (tail = [] ∨ ∃ w tail', tail = .word w :: tail') := by
  induction items with
  | nil => exact ⟨[], [], rfl, .inl rfl⟩
  | cons x items ih =>
    cases x with
    | redir r =>
      obtain ⟨rs, tail, rfl, htail⟩ := ih
      exact ⟨r :: rs, tail, rfl, htail⟩
    | word w => exact ⟨[], .word w :: items, rfl, .inr ⟨w, items, rfl⟩⟩

theorem items_start {r : List Token} (hr : Follow .exec r) (items : List Item) :
    starts [40] (items.flatMap Item.tokens ++ r) = false := by
  cases items with
  | nil => exact hr.starts (by decide)
  | cons x items =>
    cases x with
    | redir x => cases x <;> rfl
    | word w => rfl

theorem parseTail_complete (h0 : 0 ∉ s) {items done : List Item} {argc : Nat} {cmd : Cmd Span}
    {r : List Token} (hp : rest s p = items.flatMap Item.tokens ++ r) (hr : Follow .exec r)
    (hfew : argc + (items.filterMap Item.word?).length < maxArgs)
    (hcmd : cmd.text s = simple done) :
    Runs (parseTail s fuel cmd argc) (fun c p' => rest s p' = r ∧
      c.text s = simple (done ++ items)) Spins p := by
  induction fuel generalizing items done argc cmd p with
  | zero => exact runs_seq (P := fun _ _ => True) (runs_stop rfl) fun _ _ _ => runs_stop rfl
  | succ fuel ih =>
    obtain ⟨rs, tail, rfl, htail⟩ := items_split items
    rw [List.flatMap_append, flatMap_redirs, List.append_assoc] at hp
    have hstarts : starts [60, 62] (tail.flatMap Item.tokens ++ r) = false := by
      rcases htail with rfl | ⟨w, tail', rfl⟩
      · exact hr.starts (by decide)
      · rfl
    refine runs_seq (parseredirs_complete h0 hp hstarts) fun c p₁ hc => ?_
    obtain ⟨hp₁, htext⟩ := hc
    rw [hcmd, ← simple_append_redirs] at htext
    rw [parseArgs]
    rcases htail with rfl | ⟨x, tail', rfl⟩
    · rw [List.flatMap_nil, List.nil_append] at hp₁
      rw [List.append_nil]
      apply runs_peek h0 (by decide)
      · intro t ts p₂ hp₁' _ hp₂
        exact runs_pure ⟨by rw [hp₂, ← hp₁', hp₁], htext⟩
      · intro p₂ hst hp₂
        -- what follows is none of the symbols, so it is the end
        have hnil : r = [] := by
          cases r with
          | nil => rfl
          | cons t r =>
            obtain ⟨y, hy, rfl⟩ := hr t rfl
            rw [hp₁, starts] at hst
            have hall : ∀ y ∈ follows .exec, List.contains [124, 41, 38, 59] y.char = true := by
              decide
            rw [hall y hy] at hst
            cases hst
        subst hnil
        unfold Runs
        simp only [Bool.false_eq_true, if_false]
        rw [Comp.wp_bind]
        apply wp_gettoken h0
        · intro _ w p₃ hp₃
          exact runs_pure ⟨hp₃, htext⟩
        · intro t w p₃ heq
          rw [hp₂, hp₁] at heq
          cases heq
        · intro w p₃ _ heq
          rw [hp₂, hp₁] at heq
          cases heq
    · rw [List.flatMap_cons, List.append_assoc] at hp₁
      have hcount : argc + 1 + (tail'.filterMap Item.word?).length < maxArgs := by
        rw [List.filterMap_append, List.length_append] at hfew
        have hx : (Item.word x :: tail').filterMap Item.word? =
            x :: tail'.filterMap Item.word? := rfl
        rw [hx, List.length_cons] at hfew
        omega
      apply runs_peek_no h0 (by decide)
      · rw [hp₁]
        rfl
      · intro p₂ hp₂
        simp only [Bool.false_eq_true, if_false]
        apply runs_word h0 (hp₂.trans hp₁)
        intro w p₃ hp₃ hw
        subst hw
        simp only [reduceCtorEq, ne_eq, not_true_eq_false, if_false]
        refine Comp.wp_ite (fun hc => absurd hc (by omega)) fun _ => ?_
        have hadd : (c.addArg w).text s =
            simple (done ++ List.map Item.redir rs ++ [.word (spanText s w)]) := by
          rw [Cmd.text, Cmd.map_addArg, simple_append_word, ← htext]
          rfl
        have hnext : Runs (parseTail s fuel (c.addArg w) (argc + 1)) _ Spins p₃ :=
          ih hp₃ hcount hadd
        refine Comp.wp_mono hnext (fun c' p' hc' => ⟨hc'.1, ?_⟩) fun _ _ he => he
        rw [hc'.2]
        simp only [List.append_assoc, List.singleton_append]

/-! ## Derivations -/

def parser (s : List UInt8) : Nonterm → Nat → Code (Cmd Span)
  | .line => parseline s
  | .pipe => parsepipe s
  | .exec => parseexec s

theorem complete (h0 : 0 ∉ s) {nt : Nonterm} {ts r : List Token} {c : Tree} (hd : Derives nt ts c)
    (hp : rest s p = ts ++ r) (hr : Follow nt r) :
    Runs (parser s nt fuel) (fun c' p' => rest s p' = r ∧ c'.text s = c) Spins p := by
  induction hd generalizing fuel p r with
  | @line ts c n _ ih =>
    cases fuel with
    | zero => exact runs_stop rfl
    | succ fuel =>
      rw [List.append_assoc] at hp
      have hr' : Follow .pipe r := hr.mono (by decide)
      rw [parser, parseline]
      refine runs_seq (ih hp (follow_amps n hr')) fun c₁ p₁ h₁ => ?_
      refine runs_seq (parseBacks_complete h0 h₁.1 (hr.starts (by decide))) fun c₂ p₂ h₂ => ?_
      apply runs_peek_no h0 (by decide) (h₂.1 ▸ hr.starts (by decide))
      intro p₃ hp₃
      exact runs_pure ⟨hp₃.trans h₂.1, by rw [h₂.2, h₁.2]⟩
  | @lineList ts ts' c c' n _ _ ih ih' =>
    cases fuel with
    | zero => exact runs_stop rfl
    | succ fuel =>
      rw [List.append_assoc, List.append_assoc, List.cons_append] at hp
      rw [parser, parseline]
      refine runs_seq (ih hp (follow_amps n (follow_cons (by decide) _))) fun c₁ p₁ h₁ => ?_
      refine runs_seq (parseBacks_complete h0 h₁.1 rfl) fun c₂ p₂ h₂ => ?_
      apply runs_peek_yes h0 (by decide) h₂.1 (by decide)
      intro p₃ hp₃
      simp only [if_true]
      apply runs_sym h0 hp₃
      intro w p₄ hp₄
      refine runs_seq (ih' hp₄ hr) fun c₃ p₅ h₃ => ?_
      refine runs_pure ⟨h₃.1, ?_⟩
      show Cmd.list (c₂.text s) (c₃.text s) = _
      rw [h₂.2, h₁.2, h₃.2]
  | @pipe ts c _ ih =>
    cases fuel with
    | zero => exact runs_stop rfl
    | succ fuel =>
      rw [parser, parsepipe]
      refine runs_seq (ih hp (hr.mono (by decide))) fun c₁ p₁ h₁ => ?_
      apply runs_peek_no h0 (by decide) (h₁.1 ▸ hr.starts (by decide))
      intro p₂ hp₂
      exact runs_pure ⟨hp₂.trans h₁.1, h₁.2⟩
  | @pipePipe ts ts' c c' _ _ ih ih' =>
    cases fuel with
    | zero => exact runs_stop rfl
    | succ fuel =>
      rw [List.append_assoc, List.cons_append] at hp
      rw [parser, parsepipe]
      refine runs_seq (ih hp (follow_cons (by decide) _)) fun c₁ p₁ h₁ => ?_
      apply runs_peek_yes h0 (by decide) h₁.1 (by decide)
      intro p₂ hp₂
      simp only [if_true]
      apply runs_sym h0 hp₂
      intro w p₃ hp₃
      refine runs_seq (ih' hp₃ hr) fun c₂ p₄ h₂ => ?_
      refine runs_pure ⟨h₂.1, ?_⟩
      show Cmd.pipe (c₁.text s) (c₂.text s) = _
      rw [h₁.2, h₂.2]
  | @block ts c rs _ ih =>
    cases fuel with
    | zero => exact runs_stop rfl
    | succ fuel =>
      rw [List.cons_append, List.append_assoc, List.cons_append] at hp
      rw [parser, parseexec]
      apply runs_peek_yes h0 (by decide) hp (by decide)
      intro p₁ hp₁
      simp only [if_true]
      cases fuel with
      | zero => exact runs_stop rfl
      | succ fuel =>
        rw [parseblock]
        apply runs_peek_yes h0 (by decide) hp₁ (by decide)
        intro p₂ hp₂
        simp only [Bool.not_true, Bool.false_eq_true, if_false]
        apply runs_sym h0 hp₂
        intro w p₃ hp₃
        refine runs_seq (ih hp₃ (follow_cons (by decide) _)) fun c₁ p₄ h₁ => ?_
        apply runs_peek_yes h0 (by decide) h₁.1 (by decide)
        intro p₅ hp₅
        simp only [Bool.not_true, Bool.false_eq_true, if_false]
        apply runs_sym h0 hp₅
        intro w' p₆ hp₆
        have hredirs : Runs (parseredirs s fuel c₁) _ Spins p₆ :=
          parseredirs_complete h0 hp₆ (hr.starts (by decide))
        refine Comp.wp_mono hredirs (fun c₂ p' h₂ => ⟨h₂.1, ?_⟩) fun _ _ he => he
        rw [h₂.2, h₁.2]
  | simple items hfew =>
    cases fuel with
    | zero => exact runs_stop rfl
    | succ fuel =>
      rw [parser, parseexec]
      apply runs_peek_no h0 (by decide)
      · rw [hp]
        exact items_start hr items
      · intro p₁ hp₁
        simp only [Bool.false_eq_true, if_false]
        have hnil : (Cmd.exec ([] : List Span)).text s = simple [] := rfl
        have htail : Runs (parseTail s fuel (.exec []) 0) _ Spins p₁ :=
          parseTail_complete h0 (hp₁.trans hp) hr (by rwa [Nat.zero_add]) hnil
        exact htail

end Xv6.Sh
