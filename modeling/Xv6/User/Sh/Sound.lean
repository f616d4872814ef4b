import Xv6.User.Sh.Lex

/-! # What the parser returns

A command that comes out is one that the grammar derives from the tokens that were consumed, and
no count runs out: every turn of a loop and every round of the recursion takes a token.
-/

namespace Xv6.Sh

open Lib

/-! ## Words of a command -/

def Cmd.map {α β : Type} (f : α → β) : Cmd α → Cmd β
  | .exec argv => .exec (argv.map f)
  | .redir cmd file mode fd => .redir (cmd.map f) (f file) mode fd
  | .pipe left right => .pipe (left.map f) (right.map f)
  | .list left right => .list (left.map f) (right.map f)
  | .back cmd => .back (cmd.map f)

def Cmd.words {α : Type} : Cmd α → List α
  | .exec argv => argv
  | .redir cmd file _ _ => file :: cmd.words
  | .pipe left right => left.words ++ right.words
  | .list left right => left.words ++ right.words
  | .back cmd => cmd.words

def Cmd.text (s : List UInt8) (c : Cmd Span) : Tree := c.map (spanText s)

theorem Cmd.map_addArg {α β : Type} (f : α → β) (c : Cmd α) (w : α) :
    (c.addArg w).map f = (c.map f).addArg (f w) := by
  induction c with
  | exec argv => simp [addArg, map]
  | redir cmd file mode fd ih => simp only [addArg, map, ih]
  | pipe left right _ _ => rfl
  | list left right _ _ => rfl
  | back cmd _ => rfl

theorem Cmd.words_addArg {α : Type} {c : Cmd α} {w x : α} (h : x ∈ (c.addArg w).words) :
    x ∈ c.words ∨ x = w := by
  induction c with
  | exec argv => simpa [addArg, words] using h
  | redir cmd file mode fd ih =>
    rw [addArg, words, List.mem_cons] at h
    rcases h with h | h
    · exact .inl (h ▸ List.mem_cons_self)
    · exact (ih h).imp_left (List.mem_cons_of_mem _)
  | pipe left right _ _ => exact .inl h
  | list left right _ _ => exact .inl h
  | back cmd _ => exact .inl h

/-- A run of the parser from `p`. -/
def Runs {α : Type} (m : Code α) (Q : α → Nat → Prop) (E : Stop → Nat → Prop) (p : Nat) : Prop :=
  Comp.wp (fun _ => True) m Q E p

/-- The run does not end for want of a count. -/
def NoSpin (e : Stop) (_ : Nat) : Prop := e ≠ .spin

variable {s : List UInt8} {fuel p : Nat}

theorem starts_true {toks : List UInt8} {ts : List Token} (h : starts toks ts = true) :
    ∃ t ts', ts = .sym t :: ts' ∧ t.char ∈ toks := by
  cases ts with
  | nil => cases h
  | cons x ts =>
    cases x with
    | sym t => exact ⟨t, ts, rfl, List.contains_iff_mem.mp h⟩
    | word w => cases h

theorem runs_peek {α : Type} {toks : List UInt8} {f : Bool → Code α} {Q : α → Nat → Prop}
    {E : Stop → Nat → Prop} (h0 : 0 ∉ s) (htoks : toks ⊆ symbols)
    (hyes : ∀ t ts p', rest s p = .sym t :: ts → t.char ∈ toks → rest s p' = .sym t :: ts →
      Runs (f true) Q E p')
    (hno : ∀ p', starts toks (rest s p) = false → rest s p' = rest s p → Runs (f false) Q E p') :
    Runs (peek s toks >>= f) Q E p := by
  unfold Runs
  rw [Comp.wp_bind]
  apply wp_peek h0 htoks
  intro p' hp'
  cases hst : starts toks (rest s p) with
  | true =>
    obtain ⟨t, ts, hts, ht⟩ := starts_true hst
    exact hyes t ts p' hts ht (hp'.trans hts)
  | false => exact hno p' hst hp'

theorem runs_sym {α : Type} {t : Sym} {ts : List Token} {f : Tok × Span → Code α}
    {Q : α → Nat → Prop} {E : Stop → Nat → Prop} (h0 : 0 ∉ s) (hrest : rest s p = .sym t :: ts)
    (h : ∀ w p', rest s p' = ts → Runs (f (.sym t, w)) Q E p') :
    Runs (gettoken s >>= f) Q E p := by
  unfold Runs
  rw [Comp.wp_bind]
  exact wp_gettoken_sym h0 hrest h

theorem runs_seq {α β : Type} {m : Code α} {f : α → Code β} {P : α → Nat → Prop}
    {Q : β → Nat → Prop} {E : Stop → Nat → Prop} (h : Runs m P E p)
    (hf : ∀ a p', P a p' → Runs (f a) Q E p') : Runs (m >>= f) Q E p :=
  Comp.wp_seq h hf

theorem runs_pure {α : Type} {a : α} {Q : α → Nat → Prop} {E : Stop → Nat → Prop} (h : Q a p) :
    Runs (pure a) Q E p := (Comp.wp_pure a).mpr h

theorem runs_stop {α : Type} {e : Stop} {Q : α → Nat → Prop} {E : Stop → Nat → Prop} (h : E e p) :
    Runs (Comp.stop e) Q E p := (Comp.wp_stop e).mpr h

/-! ## Redirections -/

/-- From `p` to `p'` there are redirections, and they are around the command. -/
structure Redirected (s : List UInt8) (p : Nat) (cmd : Cmd Span) (rs : List Redir) (c : Cmd Span)
    (p' : Nat) : Prop where
  tokens : rest s p = rs.flatMap Redir.tokens ++ rest s p'
  text : c.text s = rs.foldl Redir.wrap (cmd.text s)
  words : ∀ w ∈ c.words, w ∈ cmd.words ∨ WordAt s w

theorem parseredirs_sound (h0 : 0 ∉ s) {cmd : Cmd Span} (hf : (rest s p).length < fuel) :
    Runs (parseredirs s fuel cmd) (fun c p' => ∃ rs, Redirected s p cmd rs c p') NoSpin p := by
  induction fuel generalizing cmd p with
  | zero => omega
  | succ fuel ih =>
    rw [parseredirs]
    apply runs_peek h0 (by decide)
    · intro t ts p₁ hp ht hp₁
      simp only [if_true]
      apply runs_sym h0 hp₁
      intro w₁ p₂ hp₂
      unfold Runs
      rw [Comp.wp_bind]
      apply wp_gettoken h0
      · intro _ w p₃ _
        exact runs_stop (by simp [NoSpin])
      · intro t' w p₃ _
        exact runs_stop (by simp [NoSpin])
      · intro w p₃ hw hp₃
        have htokens : rest s p = .sym t :: .word (spanText s w) :: rest s p₃ := by
          rw [hp, ← hp₂, hp₃]
        have hlen : (rest s p₃).length < fuel := by
          rw [htokens, List.length_cons, List.length_cons] at hf
          omega
        -- the redirection `r`, and what follows
        have hgo : ∀ (r : Redir) (cmd' : Cmd Span), r.tokens = [.sym t, .word (spanText s w)] →
            cmd'.text s = r.wrap (cmd.text s) → cmd'.words = w :: cmd.words →
            Runs (parseredirs s fuel cmd') (fun c p' => ∃ rs, Redirected s p cmd rs c p')
              NoSpin p₃ := by
          intro r cmd' hr htext hwords
          refine Comp.wp_mono (ih hlen) (fun c p' hc => ?_) fun _ _ he => he
          obtain ⟨rs, hc⟩ := hc
          refine ⟨r :: rs, ?_, ?_, fun x hx => ?_⟩
          · rw [List.flatMap_cons, hr, htokens, hc.tokens]
            rfl
          · rw [hc.text, htext]
            rfl
          · rcases hc.words x hx with hx | hx
            · rw [hwords] at hx
              rcases List.mem_cons.mp hx with rfl | hx
              · exact .inr hw
              · exact .inl hx
            · exact .inr hx
        simp only [ne_eq, not_true_eq_false, if_false]
        cases t with
        | lt => exact hgo (.input (spanText s w)) _ rfl rfl rfl
        | gt => exact hgo (.output (spanText s w)) _ rfl rfl rfl
        | append => exact hgo (.append (spanText s w)) _ rfl rfl rfl
        | _ => exact absurd ht (by decide)
    · intro p₁ _ hp₁
      exact runs_pure ⟨[], by rw [hp₁]; rfl, rfl, fun w hw => .inl hw⟩

/-! ## Simple commands -/

def parseTail (s : List UInt8) (fuel : Nat) (cmd : Cmd Span) (argc : Nat) : Code (Cmd Span) := do
  let ret ← parseredirs s fuel cmd
  parseArgs s fuel ret argc

/-- The command is the simple one of `items`, of which `argc` are words. -/
structure IsSimple (s : List UInt8) (items : List Item) (argc : Nat) (c : Cmd Span) : Prop where
  text : c.text s = simple items
  count : argc = (items.filterMap Item.word?).length
  few : argc < maxArgs
  words : ∀ w ∈ c.words, WordAt s w

theorem IsSimple.redirs {items : List Item} {argc p' : Nat} {cmd c : Cmd Span} {rs : List Redir}
    (h : IsSimple s items argc cmd) (hr : Redirected s p cmd rs c p') :
    IsSimple s (items ++ rs.map .redir) argc c := by
  have hw : (rs.map Item.redir).filterMap Item.word? = [] := by
    rw [List.filterMap_map, List.filterMap_eq_nil_iff]
    exact fun _ _ => rfl
  refine ⟨?_, ?_, h.few, fun w hmem => ?_⟩
  · rw [hr.text, h.text, simple_append_redirs]
  · rw [List.filterMap_append, hw, List.append_nil]
    exact h.count
  · exact (hr.words w hmem).elim (h.words w) id

theorem IsSimple.addArg {items : List Item} {argc : Nat} {c : Cmd Span} {w : Span}
    (h : IsSimple s items argc c) (hw : WordAt s w) (hfew : argc + 1 < maxArgs) :
    IsSimple s (items ++ [.word (spanText s w)]) (argc + 1) (c.addArg w) := by
  have htext := h.text
  have hcount := h.count
  refine ⟨?_, ?_, hfew, fun x hx => ?_⟩
  · rw [Cmd.text, Cmd.map_addArg, simple_append_word, ← htext]
    rfl
  · rw [List.filterMap_append, List.length_append, ← hcount]
    rfl
  · rcases Cmd.words_addArg hx with hx | rfl
    · exact h.words x hx
    · exact hw

theorem flatMap_redirs (rs : List Redir) :
    (rs.map Item.redir).flatMap Item.tokens = rs.flatMap Redir.tokens := by
  rw [List.flatMap_map]
  rfl

theorem parseTail_sound (h0 : 0 ∉ s) {items : List Item} {argc : Nat} {cmd : Cmd Span}
    (hc : IsSimple s items argc cmd) (hf : (rest s p).length < fuel) :
    Runs (parseTail s fuel cmd argc) (fun c p' => ∃ items' argc',
      rest s p = items'.flatMap Item.tokens ++ rest s p' ∧ IsSimple s (items ++ items') argc' c)
      NoSpin p := by
  induction fuel generalizing items argc cmd p with
  | zero => omega
  | succ fuel ih =>
    refine runs_seq (parseredirs_sound h0 hf) fun c p₁ hr => ?_
    obtain ⟨rs, hr⟩ := hr
    have hc' := hc.redirs hr
    have htokens := hr.tokens
    rw [← flatMap_redirs] at htokens
    rw [parseArgs]
    apply runs_peek h0 (by decide)
    · intro t ts p₂ hp₁ _ hp₂
      refine runs_pure ⟨rs.map .redir, argc, ?_, hc'⟩
      rw [htokens, hp₁, hp₂]
    · intro p₂ _ hp₂
      unfold Runs
      simp only [Bool.false_eq_true, if_false]
      rw [Comp.wp_bind]
      apply wp_gettoken h0
      · intro hnil w p₃ hp₃
        simp only [if_true]
        refine runs_pure ⟨rs.map .redir, argc, ?_, hc'⟩
        rw [htokens, ← hp₂, hnil, hp₃]
      · intro t w p₃ _
        exact runs_stop (by simp [NoSpin])
      · intro w p₃ hw hp₃
        simp only [reduceCtorEq, ne_eq, not_true_eq_false, if_false]
        refine Comp.wp_ite (fun _ => runs_stop (by simp [NoSpin])) fun hfew => ?_
        have hlen : (rest s p₃).length < fuel := by
          rw [htokens, ← hp₂, hp₃, List.length_append, List.length_cons] at hf
          omega
        have hnext : Runs (parseTail s fuel (c.addArg w) (argc + 1)) _ NoSpin p₃ :=
          ih (hc'.addArg hw (by omega)) hlen
        refine Comp.wp_mono hnext (fun c' p' hc₁ => ?_) fun _ _ he => he
        obtain ⟨items', argc', hrest, hsimple⟩ := hc₁
        refine ⟨rs.map .redir ++ [.word (spanText s w)] ++ items', argc', ?_, ?_⟩
        · rw [htokens, ← hp₂, hp₃, hrest, List.flatMap_append, List.flatMap_append,
            List.append_assoc, List.append_assoc]
          rfl
        · rwa [← List.append_assoc, ← List.append_assoc]

/-! ## Lines, pipes and blocks -/

theorem parseBacks_sound (h0 : 0 ∉ s) {cmd : Cmd Span} (hf : (rest s p).length < fuel) :
    Runs (parseBacks s fuel cmd) (fun c p' => ∃ n,
      rest s p = List.replicate n (.sym .amp) ++ rest s p' ∧ c.text s = backs n (cmd.text s) ∧
      c.words = cmd.words) NoSpin p := by
  induction fuel generalizing cmd p with
  | zero => omega
  | succ fuel ih =>
    rw [parseBacks]
    apply runs_peek h0 (by decide)
    · intro t ts p₁ hp ht hp₁
      obtain rfl : t = .amp := by cases t <;> first | rfl | exact absurd ht (by decide)
      simp only [if_true]
      apply runs_sym h0 hp₁
      intro w p₂ hp₂
      have hlen : (rest s p₂).length < fuel := by
        rw [hp, ← hp₂, List.length_cons] at hf
        omega
      refine Comp.wp_mono (ih hlen) (fun c p' hc => ?_) fun _ _ he => he
      obtain ⟨n, hrest, htext, hwords⟩ := hc
      refine ⟨n + 1, ?_, htext, hwords⟩
      rw [hp, ← hp₂, hrest, List.replicate_succ, List.cons_append]
    · intro p₁ _ hp₁
      exact runs_pure ⟨0, by rw [hp₁]; rfl, rfl, rfl⟩

structure Parsed (s : List UInt8) (nt : Nonterm) (p : Nat) (c : Cmd Span) (p' : Nat) : Prop where
  derives : ∃ ts, rest s p = ts ++ rest s p' ∧ Derives nt ts (c.text s)
  words : ∀ w ∈ c.words, WordAt s w

theorem Parsed.length_le {nt : Nonterm} {c : Cmd Span} {p' : Nat} (h : Parsed s nt p c p') :
    (rest s p').length ≤ (rest s p).length := by
  obtain ⟨ts, hts, -⟩ := h.derives
  rw [hts, List.length_append]
  omega

/-- What the four functions return, and how much of a count they need. -/
structure Sound (s : List UInt8) (fuel : Nat) : Prop where
  line : ∀ p, 5 * (rest s p).length + 4 ≤ fuel →
    Runs (parseline s fuel) (Parsed s .line p) NoSpin p
  pipe : ∀ p, 5 * (rest s p).length + 3 ≤ fuel →
    Runs (parsepipe s fuel) (Parsed s .pipe p) NoSpin p
  exec : ∀ p, 5 * (rest s p).length + 2 ≤ fuel →
    Runs (parseexec s fuel) (Parsed s .exec p) NoSpin p
  block : ∀ p, 5 * (rest s p).length + 1 ≤ fuel →
    Runs (parseblock s fuel) (Parsed s .exec p) NoSpin p

theorem parsepipe_sound (h0 : 0 ∉ s) (h : Sound s fuel)
    (hf : 5 * (rest s p).length + 3 ≤ fuel + 1) :
    Runs (parsepipe s (fuel + 1)) (Parsed s .pipe p) NoSpin p := by
  rw [parsepipe]
  refine runs_seq (h.exec p (by omega)) fun c p₁ hc => ?_
  have hle := hc.length_le
  obtain ⟨ts, hts, hd⟩ := hc.derives
  apply runs_peek h0 (by decide)
  · intro t ts₁ p₂ hp₁ ht hp₂
    obtain rfl : t = .pipe := by cases t <;> first | rfl | exact absurd ht (by decide)
    simp only [if_true]
    apply runs_sym h0 hp₂
    intro w p₃ hp₃
    have hlen : (rest s p₁).length = (rest s p₃).length + 1 := by
      rw [hp₁, ← hp₃, List.length_cons]
    refine runs_seq (h.pipe p₃ (by omega)) fun c' p₄ hc' => ?_
    obtain ⟨ts', hts', hd'⟩ := hc'.derives
    refine runs_pure ⟨⟨_, ?_, hd.pipePipe hd'⟩, fun x hx => ?_⟩
    · rw [hts, hp₁, ← hp₃, hts', List.append_assoc, List.cons_append]
    · exact (List.mem_append.mp hx).elim (hc.words x) (hc'.words x)
  · intro p₂ _ hp₂
    refine runs_pure ⟨⟨ts, ?_, hd.pipe⟩, hc.words⟩
    rw [hts, hp₂]

theorem parseline_sound (h0 : 0 ∉ s) (h : Sound s fuel)
    (hf : 5 * (rest s p).length + 4 ≤ fuel + 1) :
    Runs (parseline s (fuel + 1)) (Parsed s .line p) NoSpin p := by
  rw [parseline]
  refine runs_seq (h.pipe p (by omega)) fun c p₁ hc => ?_
  have hle := hc.length_le
  obtain ⟨ts, hts, hd⟩ := hc.derives
  refine runs_seq (parseBacks_sound h0 (by omega)) fun c₁ p₂ hc₁ => ?_
  obtain ⟨n, hn, htext, hwords⟩ := hc₁
  have hle' : (rest s p₂).length ≤ (rest s p₁).length := by
    rw [hn, List.length_append]
    omega
  apply runs_peek h0 (by decide)
  · intro t ts₁ p₃ hp₂ ht hp₃
    obtain rfl : t = .semi := by cases t <;> first | rfl | exact absurd ht (by decide)
    simp only [if_true]
    apply runs_sym h0 hp₃
    intro w p₄ hp₄
    have hlen : (rest s p₂).length = (rest s p₄).length + 1 := by
      rw [hp₂, ← hp₄, List.length_cons]
    refine runs_seq (h.line p₄ (by omega)) fun c' p₅ hc' => ?_
    obtain ⟨ts', hts', hd'⟩ := hc'.derives
    refine runs_pure ⟨⟨ts ++ (List.replicate n (.sym .amp) ++ .sym .semi :: ts'), ?_, ?_⟩,
      fun x hx => ?_⟩
    · rw [hts, hn, hp₂, ← hp₄, hts']
      simp only [List.append_assoc, List.cons_append]
    · have hline := Derives.lineList n hd hd'
      rw [← htext] at hline
      exact hline
    · rcases List.mem_append.mp hx with hx | hx
      · rw [hwords] at hx
        exact hc.words x hx
      · exact hc'.words x hx
  · intro p₃ _ hp₃
    refine runs_pure ⟨⟨ts ++ List.replicate n (.sym .amp), ?_, ?_⟩, fun x hx => ?_⟩
    · rw [hts, hn, hp₃, List.append_assoc]
    · rw [htext]
      exact .line n hd
    · rw [hwords] at hx
      exact hc.words x hx

theorem parseblock_sound (h0 : 0 ∉ s) (h : Sound s fuel)
    (hf : 5 * (rest s p).length + 1 ≤ fuel + 1) :
    Runs (parseblock s (fuel + 1)) (Parsed s .exec p) NoSpin p := by
  rw [parseblock]
  apply runs_peek h0 (by decide)
  swap
  · intro p₁ _ _
    exact runs_stop (by simp [NoSpin])
  intro t ts p₁ hp ht hp₁
  obtain rfl : t = .lparen := by cases t <;> first | rfl | exact absurd ht (by decide)
  simp only [Bool.not_true, Bool.false_eq_true, if_false]
  apply runs_sym h0 hp₁
  intro w p₂ hp₂
  have hlen : (rest s p).length = (rest s p₂).length + 1 := by
    rw [hp, ← hp₂, List.length_cons]
  refine runs_seq (h.line p₂ (by omega)) fun c p₃ hc => ?_
  have hle := hc.length_le
  obtain ⟨ts', hts', hd⟩ := hc.derives
  apply runs_peek h0 (by decide)
  swap
  · intro p₄ _ _
    exact runs_stop (by simp [NoSpin])
  intro t' ts₁ p₄ hp₃ ht' hp₄
  obtain rfl : t' = .rparen := by cases t' <;> first | rfl | exact absurd ht' (by decide)
  simp only [Bool.not_true, Bool.false_eq_true, if_false]
  apply runs_sym h0 hp₄
  intro w' p₅ hp₅
  have hlen' : (rest s p₃).length = (rest s p₅).length + 1 := by
    rw [hp₃, ← hp₅, List.length_cons]
  refine Comp.wp_mono (parseredirs_sound h0 (by omega)) (fun c' p' hr => ?_) fun _ _ he => he
  obtain ⟨rs, hr⟩ := hr
  refine ⟨⟨.sym .lparen :: (ts' ++ .sym .rparen :: rs.flatMap Redir.tokens), ?_, ?_⟩,
    fun x hx => ?_⟩
  · rw [hp, ← hp₂, hts', hp₃, ← hp₅, hr.tokens]
    simp only [List.append_assoc, List.cons_append]
  · rw [hr.text]
    exact .block rs hd
  · exact (hr.words x hx).elim (hc.words x) id

theorem parseexec_sound (h0 : 0 ∉ s) (h : Sound s fuel)
    (hf : 5 * (rest s p).length + 2 ≤ fuel + 1) :
    Runs (parseexec s (fuel + 1)) (Parsed s .exec p) NoSpin p := by
  rw [parseexec]
  apply runs_peek h0 (by decide)
  · intro t ts p₁ hp _ hp₁
    have hsame := hp₁.trans hp.symm
    simp only [if_true]
    refine Comp.wp_mono (h.block p₁ (by rw [hsame]; omega)) (fun c p' hc => ?_) fun _ _ he => he
    obtain ⟨ts', hts', hd⟩ := hc.derives
    exact ⟨⟨ts', hsame ▸ hts', hd⟩, hc.words⟩
  · intro p₁ _ hp₁
    have hnil : IsSimple s [] 0 (.exec []) := ⟨rfl, rfl, by decide, by simp [Cmd.words]⟩
    have htail : Runs (parseTail s fuel (.exec []) 0) _ NoSpin p₁ :=
      parseTail_sound h0 hnil (by rw [hp₁]; omega)
    refine Comp.wp_mono htail (fun c p' hc => ?_) fun _ _ he => he
    obtain ⟨items, argc, hrest, hsimple⟩ := hc
    rw [List.nil_append] at hsimple
    refine ⟨⟨items.flatMap Item.tokens, hp₁ ▸ hrest, ?_⟩, hsimple.words⟩
    rw [hsimple.text]
    exact .simple items (hsimple.count ▸ hsimple.few)

theorem sound (h0 : 0 ∉ s) (fuel : Nat) : Sound s fuel := by
  induction fuel with
  | zero => exact ⟨by omega, by omega, by omega, by omega⟩
  | succ fuel ih =>
    exact ⟨fun _ hf => parseline_sound h0 ih hf, fun _ hf => parsepipe_sound h0 ih hf,
      fun _ hf => parseexec_sound h0 ih hf, fun _ hf => parseblock_sound h0 ih hf⟩

end Xv6.Sh
