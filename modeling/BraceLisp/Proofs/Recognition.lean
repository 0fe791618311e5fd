import BraceLisp.Proofs.Grouping

/-!
What a scan accepts.

A scan reads a text exactly if the text is made of gaps and tokens that its stack takes. One
direction follows the scan character by character: what lies ahead of it (`Scan.Ahead`) grows at
the front with each step back. The other follows the tokens, each of which is read as a whole. So
a source is a program exactly if it is split into tokens that are grouped
(`Program.ofChars_eq_ok_iff`).
-/

namespace BraceLisp

open Grammar

namespace Scan

variable {s t u : Scan} {c : Char} {cs rest : List Char} {ts : List Token.Placed}

def stack (s : Scan) : Stack := ⟨s.level, s.groups⟩

lemma start_pos (h : s.start c = some t) : t.pos = s.pos + c.utf8Size := by
  rcases start_cases h with ⟨-, rfl⟩ | ⟨-, rfl⟩ | ⟨-, rfl⟩ | ⟨b, rfl, rfl⟩ | ⟨g, gs, rfl, -, rfl⟩
  · rfl
  · rfl
  · rfl
  · rw [b.utf8Size_opening]
  · rw [g.kind.utf8Size_closing]

lemma step_pos (h : s.step c = some t) : t.pos = s.pos + c.utf8Size := by
  rcases step_cases h with ⟨-, rfl⟩ | ⟨start, chars, -, -, rfl⟩ | ⟨-, hstart⟩
  · rfl
  · rfl
  · rw [start_pos hstart, settle_pos]

lemma run_pos (h : s.run cs = .ok t) : t.pos = s.pos + Text.utf8Length cs := by
  induction cs generalizing s with
  | nil => cases h; rfl
  | cons c cs ih =>
    obtain ⟨u, hc, h⟩ := run_cons_eq_ok.mp h
    rw [ih h, step_pos hc, Text.utf8Length_cons, Nat.add_assoc]

/-! ### What is read is made of tokens -/

/-- The text `cs` completes the comment or the word that is being read, and is made of gaps and
tokens from there on. The word is the first of the tokens `ts`. -/
def Ahead (s : Scan) (cs : List Char) (ts : List Token.Placed) : Prop :=
  match s.place with
  | .gap => Splits s.pos cs ts
  | .comment => ∃ body rest, cs = body ++ rest ∧ (∀ c ∈ body, (c != '\n') = true) ∧
      Text.Stops (· != '\n') rest ∧ Splits (s.pos + Text.utf8Length body) rest ts
  | .word start chars => ∃ more rest us, cs = more ++ rest ∧
      (∀ c ∈ more, isSymbolChar c = true) ∧ Text.Stops isSymbolChar rest ∧
      ts = ⟨start, .word (chars.reverse ++ more)⟩ :: us ∧
      Splits (s.pos + Text.utf8Length more) rest us

lemma ahead_nil (s : Scan) : ∃ ts, s.Ahead [] ts ∧ s.stack.feedAll ts = some s.settle.stack := by
  obtain ⟨pos, place, level, groups⟩ := s
  cases place with
  | gap => exact ⟨[], .nil, rfl⟩
  | comment => exact ⟨[], ⟨[], [], rfl, nofun, Text.stops_nil, .nil⟩, rfl⟩
  | word start chars =>
    refine ⟨[⟨start, .word chars.reverse⟩], ⟨[], [], [], rfl, nofun, Text.stops_nil, ?_, .nil⟩, rfl⟩
    rw [List.append_nil]

/-- From a gap, a character begins what lies ahead of it. -/
lemma start_ahead (h : s.start c = some t) (hts : t.Ahead cs ts) (hplace : s.place = .gap) :
    ∃ us, Splits s.pos (c :: cs) us ∧ s.stack.feedAll us = t.stack.feedAll ts := by
  rcases start_cases h with ⟨hc, rfl⟩ | ⟨rfl, rfl⟩ | ⟨hc, rfl⟩ | ⟨b, rfl, rfl⟩ |
    ⟨g, gs, rfl, hgroups, rfl⟩
  · rw [Ahead, hplace] at hts
    exact ⟨ts, hts.blank hc, rfl⟩
  · obtain ⟨body, rest, rfl, hbody, hend, hrest⟩ := hts
    refine ⟨ts, .comment hbody hend ?_, rfl⟩
    rwa [Text.utf8Length_cons, ← Nat.add_assoc]
  · obtain ⟨more, rest, us, rfl, hmore, hend, rfl, hrest⟩ := hts
    have hword : IsWord (c :: more) :=
      ⟨List.cons_ne_nil _ _, List.forall_mem_cons.mpr ⟨hc, hmore⟩⟩
    refine ⟨_, .token (t := .word (c :: more)) ⟨hword, hend⟩ ?_, rfl⟩
    rwa [Token.chars, Text.utf8Length_cons, ← Nat.add_assoc]
  · have hts : Splits (s.pos + 1) cs ts := hts
    exact ⟨_, .token (t := .opening b) trivial (by simpa [Token.chars] using hts), rfl⟩
  · have hts : Splits (s.pos + 1) cs ts := hts
    refine ⟨_, .token (t := .closing g.kind) trivial (by simpa [Token.chars] using hts), ?_⟩
    exact Stack.feedAll_cons_of_feed (by simp [Stack.feed, stack, hgroups]) ts

lemma step_ahead (h : s.step c = some t) (hts : t.Ahead cs ts) :
    ∃ us, s.Ahead (c :: cs) us ∧ s.stack.feedAll us = t.stack.feedAll ts := by
  cases hplace : s.place with
  | gap =>
    rw [step, hplace] at h
    simpa only [Ahead, hplace] using start_ahead h hts hplace
  | comment =>
    rw [step, hplace] at h
    cases h
    refine ⟨ts, ?_, rfl⟩
    rw [Ahead, hplace]
    by_cases hnewline : c = '\n'
    · subst hnewline
      exact ⟨[], _, rfl, List.forall_mem_nil _, Text.stops_cons.mpr rfl, Splits.blank rfl hts⟩
    · simp only [hnewline, if_false] at hts
      obtain ⟨body, rest, rfl, hbody, hend, hrest⟩ := hts
      refine ⟨c :: body, rest, rfl, List.forall_mem_cons.mpr ⟨?_, hbody⟩, hend, ?_⟩
      · simpa using hnewline
      · rwa [Text.utf8Length_cons, ← Nat.add_assoc]
  | word start chars =>
    by_cases hc : isSymbolChar c = true
    · simp only [step, hplace, hc, if_true] at h
      cases h
      obtain ⟨more, rest, us, rfl, hmore, hend, rfl, hrest⟩ := hts
      refine ⟨_, ?_, rfl⟩
      rw [Ahead, hplace]
      refine ⟨c :: more, rest, us, rfl, List.forall_mem_cons.mpr ⟨hc, hmore⟩, hend, by simp, ?_⟩
      rwa [Text.utf8Length_cons, ← Nat.add_assoc]
    · -- the word ends here, and the character is read from the gap after it
      rw [Bool.not_eq_true] at hc
      have hne : s.place ≠ .comment := by simp [hplace]
      rw [step_of_not_symbolChar hne hc] at h
      obtain ⟨us, hus, hfeed⟩ := start_ahead h hts (settle_place hne)
      refine ⟨⟨start, .word chars.reverse⟩ :: us, ?_, ?_⟩
      · rw [Ahead, hplace]
        refine ⟨[], c :: cs, us, rfl, List.forall_mem_nil _, Text.stops_cons.mpr hc,
          by rw [List.append_nil], ?_⟩
        simpa using hus
      · rw [← hfeed]
        refine Stack.feedAll_cons_of_feed ?_ us
        simp [Stack.feed, stack, settle, hplace]

lemma run_ahead (h : s.run cs = .ok t) :
    ∃ ts, s.Ahead cs ts ∧ s.stack.feedAll ts = some t.settle.stack := by
  induction cs generalizing s with
  | nil => cases h; exact ahead_nil _
  | cons c cs ih =>
    obtain ⟨u, hc, h⟩ := run_cons_eq_ok.mp h
    obtain ⟨ts, hts, hfeed⟩ := ih h
    obtain ⟨us, hus, hfeed'⟩ := step_ahead hc hts
    exact ⟨us, hus, hfeed'.trans hfeed⟩

/-! ### What is made of tokens is read -/

/-- Where the next character is no symbol character, it does not matter whether the word before it
counts as complete. -/
lemma run_of_settle (hs : s.place ≠ .comment) (hcs : Text.Stops isSymbolChar cs)
    (h : s.settle.run cs = .ok t) : ∃ u, s.run cs = .ok u ∧ u.settle = t.settle := by
  cases cs with
  | nil =>
    cases h
    exact ⟨s, rfl, (settle_of_gap (settle_place hs)).symm⟩
  | cons c cs =>
    have hgap : s.settle.place ≠ .comment := by rw [settle_place hs]; exact nofun
    have hc := Text.stops_cons.mp hcs
    have hstep : s.settle.step c = s.step c := by
      rw [step_of_not_symbolChar hs hc, step_of_not_symbolChar hgap hc,
        settle_of_gap (settle_place hs)]
    rw [run_cons_eq_ok, hstep, ← run_cons_eq_ok] at h
    exact ⟨t, h, rfl⟩

section

variable {pos : Nat} {level : List Form} {groups : List OpenGroup}

lemma run_comment {body : List Char} (hbody : ∀ c ∈ body, (c != '\n') = true) :
    run ⟨pos, .comment, level, groups⟩ body =
      .ok ⟨pos + Text.utf8Length body, .comment, level, groups⟩ := by
  induction body generalizing pos with
  | nil => rfl
  | cons c body ih =>
    have hc : c ≠ '\n' := by simpa using hbody c List.mem_cons_self
    have hstep : step ⟨pos, .comment, level, groups⟩ c =
        some ⟨pos + c.utf8Size, .comment, level, groups⟩ := by
      simp [step, hc]
    rw [run_cons_of_step hstep, ih fun d hd => hbody d (List.mem_cons_of_mem _ hd),
      Text.utf8Length_cons, Nat.add_assoc]

/-- After a gap the scan stands in a gap, or in a comment that the end of the line ends. -/
lemma run_gap (pos : Nat) (level : List Form) (groups : List OpenGroup) {g : List Char}
    (hg : IsGap rest g) :
    ∃ place, run ⟨pos, .gap, level, groups⟩ g =
        .ok ⟨pos + Text.utf8Length g, place, level, groups⟩ ∧
      (place = .gap ∨ place = .comment ∧ Text.Stops (· != '\n') rest) := by
  induction hg generalizing pos with
  | nil => exact ⟨.gap, rfl, Or.inl rfl⟩
  | @blank c g hc _ ih =>
    have hstep : step ⟨pos, .gap, level, groups⟩ c =
        some ⟨pos + c.utf8Size, .gap, level, groups⟩ := start_blank _ hc
    obtain ⟨place, hrun, hplace⟩ := ih (pos + c.utf8Size)
    refine ⟨place, ?_, hplace⟩
    rw [run_cons_of_step hstep, hrun, Text.utf8Length_cons, Nat.add_assoc]
  | @comment body g hbody hend _ ih =>
    have hstep : step ⟨pos, .gap, level, groups⟩ ';' =
        some ⟨pos + ';'.utf8Size, .comment, level, groups⟩ := rfl
    rw [run_cons_of_step hstep, run_append, run_comment hbody, Except.bind, Text.utf8Length_cons,
      Text.utf8Length_append, ← Nat.add_assoc, ← Nat.add_assoc]
    cases g with
    | nil => exact ⟨.comment, rfl, Or.inr ⟨rfl, hend⟩⟩
    | cons c g =>
      -- the line feed ends the comment, and is the first blank of the gap that is left
      have hc : c = '\n' := by simpa using hend
      subst hc
      obtain ⟨place, hrun, hplace⟩ := ih (pos + ';'.utf8Size + Text.utf8Length body)
      exact ⟨place, hrun, hplace⟩

end

/-- A token that begins in a gap is read as a whole, and it may count as complete when the scan
goes on. -/
lemma run_token {p : Token.Placed} {s' : Stack} (hs : s.place = .gap) (hpos : s.pos = p.start)
    (hp : p.token.Whole rest) (hfeed : s.stack.feed p = some s') :
    ∃ t, s.run p.token.chars = .ok t ∧ t.settle.place = .gap ∧ t.settle.stack = s' ∧
      ∀ u, t.settle.run rest = .ok u → ∃ v, t.run rest = .ok v ∧ v.settle = u.settle := by
  obtain ⟨start, token⟩ := p
  subst hpos
  cases token with
  | word cs =>
    cases hfeed
    refine ⟨_, run_word hs hp.1, rfl, ?_, fun u => run_of_settle nofun hp.2⟩
    simp [settle, stack, Token.chars]
  | opening b =>
    cases hfeed
    have hstep : s.step b.opening =
        some ⟨s.pos + 1, .gap, [], ⟨b, s.pos, s.level⟩ :: s.groups⟩ := by
      rw [step, hs]
      exact start_opening s b
    exact ⟨_, run_cons_of_step hstep [], rfl, rfl, fun u hu => ⟨u, hu, rfl⟩⟩
  | closing b =>
    obtain ⟨start, before, gs, hgroups, rfl⟩ := Stack.feed_closing.mp hfeed
    have hgroups : s.groups = ⟨b, start, before⟩ :: gs := hgroups
    have hstep : s.step b.closing = some ⟨s.pos + 1, .gap,
        .group b ⟨start, s.pos + 1⟩ s.level.reverse :: before, gs⟩ := by
      rw [step, hs]
      exact (start_closing s b).trans (by simp [close, hgroups])
    exact ⟨_, run_cons_of_step hstep [], rfl, rfl, fun u hu => ⟨u, hu, rfl⟩⟩

/-- From a gap on, what is made of tokens that the stack takes is read. -/
lemma run_lexes {pos stop : Nat} {s' : Stack} (h : Lexes pos cs ts stop rest)
    (hrest : IsGap [] rest) (hs : s.place = .gap) (hpos : s.pos = pos)
    (hfeed : s.stack.feedAll ts = some s') :
    ∃ t, s.run cs = .ok t ∧ t.settle.stack = s' := by
  induction h generalizing s with
  | nil =>
    obtain ⟨pos, place, level, groups⟩ := s
    cases hs
    cases hfeed
    obtain ⟨place, hrun, hplace⟩ := run_gap pos level groups hrest
    refine ⟨_, hrun, ?_⟩
    rcases hplace with rfl | ⟨rfl, -⟩ <;> rfl
  | @token pos _ g cs _ t ts hgap hwhole _ ih =>
    obtain ⟨pos, place, level, groups⟩ := s
    cases hs
    subst hpos
    obtain ⟨s₁, hfeed₁, hfeed⟩ := Option.bind_eq_some_iff.mp hfeed
    obtain ⟨place, hrun, hplace⟩ := run_gap pos level groups hgap
    have hplace : place = .gap := hplace.resolve_right fun h => hwhole.not_stops h.2
    subst hplace
    obtain ⟨u, hu, hplace, hstack, hsettled⟩ :=
      run_token (s := ⟨pos + Text.utf8Length g, .gap, level, groups⟩) rfl rfl hwhole hfeed₁
    obtain ⟨v, hv, hs'⟩ := ih hrest hplace (by rw [settle_pos, run_pos hu])
      (by rw [hstack]; exact hfeed)
    obtain ⟨w, hw, hsettle⟩ := hsettled v hv
    refine ⟨w, ?_, by rw [hsettle]; exact hs'⟩
    rw [run_append, hrun, Except.bind, run_append, hu, Except.bind, hw]

end Scan

/-- A source is a program exactly if it is made of gaps and tokens, and the tokens are grouped. -/
theorem Program.ofChars_eq_ok_iff {cs : List Char} {p : Program} :
    Program.ofChars cs = .ok p ↔
      p.size = Text.utf8Length cs ∧ ∃ ts, Splits 0 cs ts ∧ Groups ts p.forms := by
  rw [Program.ofChars_eq_ok]
  constructor
  · rintro ⟨s, hrun, hgroups, rfl⟩
    obtain ⟨ts, hts, hfeed⟩ := Scan.run_ahead hrun
    have hsettled : s.settle.stack = ⟨s.settle.level, []⟩ := by
      rw [Scan.stack, Scan.settle_groups, hgroups]
    refine ⟨by rw [Scan.run_pos hrun]; exact Nat.zero_add _, ts, hts, groups_iff.mpr ?_⟩
    rw [List.reverse_reverse, ← hsettled]
    exact hfeed
  · rintro ⟨hsize, ts, ⟨stop, g, hlexes, hg⟩, hgroups⟩
    obtain ⟨s, hrun, hstack⟩ :=
      Scan.run_lexes (s := .init) hlexes hg rfl rfl (groups_iff.mp hgroups)
    injection hstack with hlevel hopen
    refine ⟨s, hrun, by rw [← hopen, Scan.settle_groups], ?_⟩
    have hpos : s.pos = Text.utf8Length cs := by rw [Scan.run_pos hrun]; exact Nat.zero_add _
    rw [hlevel, List.reverse_reverse, hpos, ← hsize]

end BraceLisp
