import Xv6.User.Sh.Complete

/-! # The shell parser accepts exactly its grammar

`parsecmd` returns a command if and only if the whole text is a line, and then it returns the tree
of the line: the NULs that are put behind the words do not touch any of them.
-/

namespace Xv6.Sh

open Lib

variable {s : List UInt8}

/-! ## The pointer stays in the text -/

def Keeps {α : Type} (s : List UInt8) (m : Code α) : Prop :=
  ∀ p ≤ s.length, Runs m (fun _ p' => p' ≤ s.length) (fun _ _ => True) p

theorem Keeps.bind {α β : Type} {m : Code α} {f : α → Code β} (h : Keeps s m)
    (hf : ∀ a, Keeps s (f a)) : Keeps s (m >>= f) :=
  fun p hp => runs_seq (h p hp) fun a p' hp' => hf a p' hp'

theorem Keeps.pure {α : Type} (a : α) : Keeps s (pure a : Code α) := fun _ hp => runs_pure hp

theorem Keeps.stop {α : Type} (e : Stop) : Keeps s (Comp.stop e : Code α) :=
  fun _ _ => runs_stop trivial

theorem Keeps.ite {α : Type} {c : Prop} [Decidable c] {m m' : Code α} (h : Keeps s m)
    (h' : Keeps s m') : Keeps s (if c then m else m') :=
  fun p hp => Comp.wp_ite (fun _ => h p hp) fun _ => h' p hp

theorem scan_le (p : UInt8 → Bool) {fuel i : Nat} (h : i ≤ s.length) :
    scan p s fuel i ≤ s.length := by
  induction fuel generalizing i with
  | zero => exact h
  | succ fuel ih =>
    rw [scan]
    split
    · exact ih (by omega)
    · exact h

theorem lt_of_charAt {i : Nat} (h : charAt s i ≠ 0) : i < s.length := by
  by_contra hge
  exact h (charAt_of_drop_nil (List.drop_eq_nil_of_le (by omega))).1

theorem tokenAt_le {i : Nat} (h : i ≤ s.length) : (tokenAt s i).2 ≤ s.length := by
  have hscan : scan isWord s s.length i ≤ s.length := scan_le isWord h
  by_cases hc : charAt s i = 0
  · simp [tokenAt, hc, h]
  · have hlt := lt_of_charAt hc
    have happ : charAt s (i + 1) = 62 → i + 1 < s.length := fun heq =>
      lt_of_charAt (by rw [heq]; decide)
    simp only [tokenAt, if_neg hc]
    repeat' split
    all_goals first | exact hscan | (dsimp only; omega) | exact happ ‹_›

theorem keeps_gettoken : Keeps s (gettoken s) := by
  intro p hp
  unfold gettoken Runs
  simp only [Comp.wp_bind, Comp.wp_get, Comp.wp_assign, Comp.wp_pure]
  exact scan_le isSpace (tokenAt_le (scan_le isSpace hp))

theorem keeps_peek (toks : List UInt8) : Keeps s (peek s toks) := by
  intro p hp
  unfold peek Runs
  simp only [Comp.wp_bind, Comp.wp_get, Comp.wp_assign, Comp.wp_pure]
  exact scan_le isSpace hp

theorem keeps_parseredirs (fuel : Nat) (cmd : Cmd Span) : Keeps s (parseredirs s fuel cmd) := by
  induction fuel generalizing cmd with
  | zero => exact .stop _
  | succ fuel ih =>
    rw [parseredirs]
    refine .bind (keeps_peek _) fun b => .ite (.bind keeps_gettoken fun x => ?_) (.pure _)
    refine .bind keeps_gettoken fun y => .ite (.stop _) ?_
    split <;> exact ih _

theorem keeps_parseArgs (fuel : Nat) (cmd : Cmd Span) (argc : Nat) :
    Keeps s (parseArgs s fuel cmd argc) := by
  induction fuel generalizing cmd argc with
  | zero => exact .stop _
  | succ fuel ih =>
    rw [parseArgs]
    refine .bind (keeps_peek _) fun b => .ite (.pure _) (.bind keeps_gettoken fun x => ?_)
    refine .ite (.pure _) (.ite (.stop _) (.ite (.stop _) ?_))
    exact .bind (keeps_parseredirs _ _) fun ret => ih _ _

theorem keeps_parseBacks (fuel : Nat) (cmd : Cmd Span) : Keeps s (parseBacks s fuel cmd) := by
  induction fuel generalizing cmd with
  | zero => exact .stop _
  | succ fuel ih =>
    rw [parseBacks]
    exact .bind (keeps_peek _) fun b => .ite (.bind keeps_gettoken fun x => ih _) (.pure _)

theorem keeps_parse (fuel : Nat) : Keeps s (parseline s fuel) ∧ Keeps s (parsepipe s fuel) ∧
    Keeps s (parseblock s fuel) ∧ Keeps s (parseexec s fuel) := by
  induction fuel with
  | zero => exact ⟨.stop _, .stop _, .stop _, .stop _⟩
  | succ fuel ih =>
    obtain ⟨hline, hpipe, hblock, hexec⟩ := ih
    rw [parseline, parsepipe, parseblock, parseexec]
    refine ⟨?_, ?_, ?_, ?_⟩
    · refine .bind hpipe fun c => .bind (keeps_parseBacks _ _) fun c' => ?_
      refine .bind (keeps_peek _) fun b => .ite (.bind keeps_gettoken fun x => ?_) (.pure _)
      exact .bind hline fun right => .pure _
    · refine .bind hexec fun c => .bind (keeps_peek _) fun b => ?_
      exact .ite (.bind keeps_gettoken fun x => .bind hpipe fun right => .pure _) (.pure _)
    · refine .bind (keeps_peek _) fun b => .ite (.stop _) (.bind keeps_gettoken fun x => ?_)
      refine .bind hline fun c => .bind (keeps_peek _) fun b' => .ite (.stop _) ?_
      exact .bind keeps_gettoken fun y => keeps_parseredirs _ _
    · refine .bind (keeps_peek _) fun b => .ite hblock ?_
      exact .bind (keeps_parseredirs _ _) fun ret => keeps_parseArgs _ _ _

/-- With no token left, only white space is. -/
theorem skip_to_end {p : Nat} (hp : p ≤ s.length) (h : rest s p = []) : skip s p = s.length := by
  have hle : skip s p ≤ s.length := scan_le isSpace hp
  by_contra hne
  have hlt : skip s p < s.length := by omega
  have hd := List.drop_eq_getElem_cons hlt
  have hsp := skip_stops hd
  rw [← rest_skip, rest, hd, tokens, if_neg (by simp [hsp])] at h
  split at h
  · cases h
  · split at h <;> cases h

/-! ## Strings -/

/-- The NUL-terminated string at `q`. -/
def cstring (buf : List UInt8) (q : Nat) : List UInt8 := (buf.drop q).takeWhile (· ≠ 0)

theorem cstring_eq {buf : List UInt8} {q n : Nat}
    (hin : ∀ i, q ≤ i → i < q + n → ∃ c, c ≠ 0 ∧ buf[i]? = some c ∧ s[i]? = some c)
    (hend : buf[q + n]? = some 0) : cstring buf q = (s.drop q).take n := by
  induction n generalizing q with
  | zero =>
    rw [Nat.add_zero] at hend
    obtain ⟨hlt, hz⟩ := List.getElem?_eq_some_iff.mp hend
    rw [cstring, List.drop_eq_getElem_cons hlt, hz, List.takeWhile_cons_of_neg (by simp)]
    rfl
  | succ n ih =>
    obtain ⟨c, hne, hb, hs⟩ := hin q (Nat.le_refl q) (by omega)
    obtain ⟨hlt, rfl⟩ := List.getElem?_eq_some_iff.mp hb
    obtain ⟨hlt', heq⟩ := List.getElem?_eq_some_iff.mp hs
    have hrest := ih (q := q + 1) (fun i hlo hhi => hin i (by omega) (by omega))
      (by rw [Nat.add_assoc, Nat.add_comm 1]; exact hend)
    rw [cstring, List.drop_eq_getElem_cons hlt, List.takeWhile_cons_of_pos (by simpa using hne),
      List.drop_eq_getElem_cons hlt', List.take_succ_cons, heq]
    exact congrArg _ hrest

/-! ## `nulterminate` -/

theorem nulterminate_length (c : Cmd Span) (buf : List UInt8) :
    (nulterminate c buf).length = buf.length := by
  induction c generalizing buf with
  | exec argv =>
    rw [nulterminate]
    induction argv generalizing buf with
    | nil => rfl
    | cons w argv ih => rw [List.foldl_cons, ih, List.length_set]
  | redir cmd file mode fd ih => rw [nulterminate, List.length_set, ih]
  | pipe left right ih ih' => rw [nulterminate, ih', ih]
  | list left right ih ih' => rw [nulterminate, ih', ih]
  | back cmd ih => exact ih buf

theorem set_zero {buf : List UInt8} {i : Nat} (hi : i < buf.length) (e : Nat) :
    (buf.set e 0)[i]? = if i = e then some 0 else buf[i]? := by
  by_cases h : i = e
  · rw [if_pos h, ← h, List.getElem?_set_self hi]
  · rw [if_neg h, List.getElem?_set_ne (Ne.symm h)]

/-- The bytes after the words are zero and the others are as they were. -/
theorem nulterminate_spec (c : Cmd Span) (buf : List UInt8) {i : Nat} (hi : i < buf.length) :
    (nulterminate c buf)[i]? = if i ∈ c.words.map Prod.snd then some 0 else buf[i]? := by
  induction c generalizing buf with
  | exec argv =>
    rw [nulterminate, Cmd.words]
    induction argv generalizing buf with
    | nil => rfl
    | cons w argv ih =>
      rw [List.foldl_cons, ih (buf.set w.2 0) (by rwa [List.length_set]), set_zero hi,
        List.map_cons]
      simp only [List.mem_cons]
      split_ifs <;> first | rfl | simp_all
  | redir cmd file mode fd ih =>
    rw [nulterminate, set_zero (by rwa [nulterminate_length]), ih buf hi, Cmd.words, List.map_cons]
    simp only [List.mem_cons]
    split_ifs <;> first | rfl | simp_all
  | pipe left right ih ih' =>
    rw [nulterminate, ih' _ (by rwa [nulterminate_length]), ih buf hi, Cmd.words, List.map_append]
    simp only [List.mem_append]
    split_ifs <;> first | rfl | simp_all
  | list left right ih ih' =>
    rw [nulterminate, ih' _ (by rwa [nulterminate_length]), ih buf hi, Cmd.words, List.map_append]
    simp only [List.mem_append]
    split_ifs <;> first | rfl | simp_all
  | back cmd ih => exact ih buf hi

theorem Cmd.map_congr {α β : Type} {f g : α → β} {c : Cmd α} (h : ∀ w ∈ c.words, f w = g w) :
    c.map f = c.map g := by
  induction c with
  | exec argv =>
    rw [map, map]
    exact congrArg _ (List.map_congr_left h)
  | redir cmd file mode fd ih =>
    rw [map, map, ih fun w hw => h w (List.mem_cons_of_mem _ hw), h file List.mem_cons_self]
  | pipe left right ih ih' =>
    rw [map, map, ih fun w hw => h w (List.mem_append_left _ hw),
      ih' fun w hw => h w (List.mem_append_right _ hw)]
  | list left right ih ih' =>
    rw [map, map, ih fun w hw => h w (List.mem_append_left _ hw),
      ih' fun w hw => h w (List.mem_append_right _ hw)]
  | back cmd ih => rw [map, map, ih h]

def Cmd.strings (buf : List UInt8) (c : Cmd Span) : Tree := c.map fun w => cstring buf w.1

/-- No word contains the end of another. -/
theorem cstring_nulterminate (h0 : 0 ∉ s) {c : Cmd Span} (hw : ∀ w ∈ c.words, WordAt s w)
    {w : Span} (hmem : w ∈ c.words) :
    cstring (nulterminate c (s ++ [0])) w.1 = spanText s w := by
  have hlen : (s ++ [0]).length = s.length + 1 := by simp
  have hword := hw w hmem
  have hsum : w.1 + (w.2 - w.1) = w.2 := Nat.add_sub_cancel' (Nat.le_of_lt hword.lt)
  have hle := hword.le
  refine cstring_eq (fun i hlo hhi => ?_) ?_
  · rw [hsum] at hhi
    have hi : i < s.length := by omega
    have hnot : i ∉ c.words.map Prod.snd := by
      intro hends
      obtain ⟨x, hx, rfl⟩ := List.mem_map.mp hends
      rcases (hw x hx).ends with hend | hend
      · omega
      · exact hend (hword.inside _ hlo hhi)
    refine ⟨s[i], fun hz => h0 (hz ▸ List.getElem_mem hi), ?_, List.getElem?_eq_getElem hi⟩
    rw [nulterminate_spec c _ (by omega), if_neg hnot, List.getElem?_append_left hi,
      List.getElem?_eq_getElem hi]
  · rw [hsum, nulterminate_spec c _ (by omega), if_pos (List.mem_map.mpr ⟨w, hmem, rfl⟩)]

/-! ## The whole -/

theorem rest_length (s : List UInt8) : rest s s.length = [] := by
  rw [rest, List.drop_length, tokens_nil]

structure Accepted (s : List UInt8) (r : Cmd Span × List UInt8) : Prop where
  derives : Derives .line (tokens s) (r.1.text s)
  words : ∀ w ∈ r.1.words, WordAt s w
  buf : r.2 = nulterminate r.1 (s ++ [0])

theorem Accepted.strings (h0 : 0 ∉ s) {r : Cmd Span × List UInt8} (h : Accepted s r) :
    r.1.strings r.2 = r.1.text s := by
  rw [h.buf]
  exact Cmd.map_congr fun w hw => cstring_nulterminate h0 h.words hw

theorem parsecmd_sound (h0 : 0 ∉ s) : Runs (parsecmd s) (fun r _ => Accepted s r) NoSpin 0 := by
  have hlen : (rest s 0).length ≤ s.length := tokens_length s
  unfold parsecmd
  refine runs_seq ((sound h0 _).line 0 (by omega)) fun c p hc => ?_
  obtain ⟨ts, hts, hd⟩ := hc.derives
  unfold Runs
  rw [Comp.wp_bind]
  refine wp_peek h0 (by simp) fun p' hp' => ?_
  simp only [Comp.wp_bind, Comp.wp_get]
  refine Comp.wp_ite (fun _ => runs_stop (by simp [NoSpin])) fun hend => runs_pure ⟨?_, ?_, rfl⟩
  · have hnil : rest s p = [] := by
      rw [← hp', not_not.mp hend, rest_length]
    rw [hnil, List.append_nil] at hts
    have htokens : tokens s = ts := hts
    rw [htokens]
    exact hd
  · exact hc.words

theorem parsecmd_complete (h0 : 0 ∉ s) {c : Tree} (hd : Derives .line (tokens s) c) :
    Runs (parsecmd s) (fun r _ => r.1.text s = c) Spins 0 := by
  have hp : rest s 0 = tokens s ++ [] := by
    rw [List.append_nil]
    rfl
  have hfollow : Follow .line [] := by
    intro t ht
    cases ht
  have hline : Runs (parser s .line (5 * s.length + 4)) _ Spins 0 := complete h0 hd hp hfollow
  have hkeeps := (keeps_parse (s := s) (5 * s.length + 4)).1 0 (Nat.zero_le _)
  unfold parsecmd
  refine runs_seq (P := fun c' p => (rest s p = [] ∧ c'.text s = c) ∧ p ≤ s.length) ?_
    fun c' p hc' => ?_
  · exact Comp.wp_mono (Comp.wp_and hline hkeeps) (fun _ _ h => h) fun _ _ h => h.1
  · obtain ⟨⟨hnil, htext⟩, hle⟩ := hc'
    unfold Runs peek
    simp only [Comp.wp_bind, Comp.wp_get, Comp.wp_assign, Comp.wp_pure]
    refine Comp.wp_ite (fun hne => absurd (skip_to_end hle hnil) hne) fun _ => runs_pure htext

/-- For every text: `parsecmd` returns and the whole text is a line, of which the command that is
returned, with the strings at its words, is the only tree; or it ends in a panic, and the text is
not a line. -/
theorem parsecmd_accepts_lines (s : List UInt8) (h0 : 0 ∉ s) :
    (∃ cmd buf, (parsecmd s 0).result = .ok (cmd, buf) ∧
      Derives .line (tokens s) (cmd.strings buf) ∧
      ∀ c, Derives .line (tokens s) c → c = cmd.strings buf) ∨
    (∃ msg, (parsecmd s 0).result = .error (.panic msg)) ∧
      ∀ c, ¬ Derives .line (tokens s) c := by
  have hsound := (parsecmd_sound h0).2
  have hcomplete : ∀ {c}, Derives .line (tokens s) c → _ := fun hd => (parsecmd_complete h0 hd).2
  cases hr : (parsecmd s 0).result with
  | ok r =>
    simp only [hr] at hsound hcomplete
    have hstrings := hsound.strings h0
    refine .inl ⟨r.1, r.2, rfl, hstrings ▸ hsound.derives, fun c hd => ?_⟩
    rw [hstrings, hcomplete hd]
  | error e =>
    simp only [hr] at hsound hcomplete
    cases e with
    | panic msg =>
      refine .inr ⟨⟨msg, rfl⟩, fun c hd => ?_⟩
      cases hcomplete hd
    | spin => exact absurd rfl hsound

theorem parsecmd_ls : (parsecmd [108, 115, 62, 102, 59] 0).result =
    .ok (.list (.redir (.exec [(0, 2)]) (3, 4) 1537 1) (.exec []), [108, 115, 0, 102, 0, 0]) := by
  have hres : (parsecmd [108, 115, 62, 102, 59] 0).result.toOption =
      some (.list (.redir (.exec [(0, 2)]) (3, 4) 1537 1) (.exec []),
        [108, 115, 0, 102, 0, 0]) := by
    decide +kernel
  cases hr : (parsecmd [108, 115, 62, 102, 59] 0).result with
  | ok r =>
    rw [hr] at hres
    cases hres
    rfl
  | error e =>
    rw [hr] at hres
    cases hres

theorem parsecmd_accepts_lines_ls :
    Derives .line (tokens [108, 115, 62, 102, 59])
      (.list (.redir (.exec [[108, 115]]) [102] 1537 1) (.exec [])) := by
  rcases parsecmd_accepts_lines [108, 115, 62, 102, 59] (by decide) with
    ⟨cmd, buf, hr, hd, -⟩ | ⟨⟨msg, hr⟩, -⟩
  · rw [parsecmd_ls] at hr
    cases hr
    exact hd
  · rw [parsecmd_ls] at hr
    cases hr

/-- For every text that `parsecmd` accepts: each word of the command, read as a string from the
terminated text, is the word of the text that it was, and each terminator is in the text or right
behind it. -/
theorem parsecmd_words_survive (s : List UInt8) (h0 : 0 ∉ s) {cmd : Cmd Span} {buf : List UInt8}
    (hr : (parsecmd s 0).result = .ok (cmd, buf)) :
    buf = nulterminate cmd (s ++ [0]) ∧
      ∀ w ∈ cmd.words, WordAt s w ∧ cstring buf w.1 = spanText s w ∧ w.2 ≤ s.length := by
  have hsound := (parsecmd_sound h0).2
  simp only [hr] at hsound
  refine ⟨hsound.buf, fun w hw => ⟨hsound.words w hw, ?_, (hsound.words w hw).le⟩⟩
  have hbuf : buf = nulterminate cmd (s ++ [0]) := hsound.buf
  rw [hbuf]
  exact cstring_nulterminate h0 hsound.words hw

theorem parsecmd_words_survive_ls : cstring [108, 115, 0, 102, 0, 0] 3 = [102] :=
  ((parsecmd_words_survive _ (by decide) parsecmd_ls).2 (3, 4) (by decide)).2.1

end Xv6.Sh
