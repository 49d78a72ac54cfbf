/-
The console of a build, mirrored line by line.

What was read of the console so far is handed over whenever something arrives. The streamer
remembers how far it has split lines, and whether the framed log is open.

* `scrubTerminalControl` — escape sequences and control characters removed;
* `Streamer.feed` — the loop over the completed lines;
* `Streamer.feed_after` — a streamer that was fed `b` and then more is where one fed all is;
* `console_mirrored` — however the console arrives, the lines outside of the framing are logged.
-/
import Mathlib.Data.List.Chain
import TestRange.Lib.Lines
import TestRange.Orchestrator.BuildResult

namespace TestRange

namespace BuildResult

namespace Console

open Search (find)
open Lines (complete pending)

/-! ### Terminal control -/

/-- U+001B -/
def esc : Char := Char.ofNat 0x1b

/-- U+0007 -/
def bel : Char := Char.ofNat 7

/-- A class of characters, `[a-b]`. -/
def between (a b : Char) (c : Char) : Bool := a.toNat ≤ c.toNat && c.toNat ≤ b.toNat

/-- What `_OSC` matches at the beginning of a text: how many characters. -/
def matchOsc : List Char → Option ℕ
  | e :: br :: cs =>
    if e = esc ∧ br = ']' then
      let title := cs.takeWhile fun c => c ≠ bel && c ≠ esc
      match cs.drop title.length with
      | [] => none
      | [c] => if c = bel then some (title.length + 3) else none
      | c :: d :: _ =>
        if c = bel then some (title.length + 3)
        else if d = '\\' then some (title.length + 4)
        else none
    else none
  | _ => none

/-- What `_CSI` matches. -/
def matchCsi : List Char → Option ℕ
  | e :: br :: cs =>
    if e = esc ∧ br = '[' then
      let params := cs.takeWhile (between '0' '?')
      let rest := cs.drop params.length
      let intermediates := rest.takeWhile (between ' ' '/')
      match rest.drop intermediates.length with
      | [] => none
      | final :: _ =>
        if between '@' '~' final then some (params.length + intermediates.length + 3) else none
    else none
  | _ => none

/-- What `_ESC` matches: one byte, or a sequence. -/
def matchEsc : List Char → Option ℕ
  | [] => none
  | e :: cs =>
    if e = esc then
      if (cs.head?.any fun c => between '@' 'Z' c || between '\\' '_' c) = true then some 2
      else
        let intermediates := cs.takeWhile (between ' ' '/')
        match cs.drop intermediates.length with
        | [] => none
        | final :: _ => if between '0' '~' final then some (intermediates.length + 2) else none
    else none

/-- `[\x00-\x08\x0b-\x1f\x7f]` -/
def isC0 (c : Char) : Bool := c.toNat ≤ 8 || (11 ≤ c.toNat && c.toNat ≤ 0x1f) || c.toNat = 0x7f

/-- `pattern.sub("", text)`: from the left, what is matched is skipped. -/
def sub (pattern : List Char → Option ℕ) : ℕ → List Char → List Char
  | _, [] => []
  | skip + 1, _ :: cs => sub pattern skip cs
  | 0, c :: cs =>
    match pattern (c :: cs) with
    | some (n + 1) => sub pattern n cs
    | some 0 | none => c :: sub pattern 0 cs

/-- `scrub_terminal_control` -/
def scrubTerminalControl (text : List Char) : List Char :=
  (sub matchEsc 0 (sub matchCsi 0 (sub matchOsc 0 text))).filter fun c => !isC0 c

theorem sub_sublist (pattern : List Char → Option ℕ) (n : ℕ) (text : List Char) :
    (sub pattern n text).Sublist text := by
  induction text generalizing n with
  | nil =>
    cases n <;> exact List.Sublist.refl []
  | cons c cs ih =>
    cases n with
    | succ n => exact (ih n).cons c
    | zero =>
      rw [sub]
      split
      · exact (ih _).cons c
      · exact (ih 0).cons_cons c
      · exact (ih 0).cons_cons c

/-- What is left was there, and is no control character. -/
theorem mem_scrub {c : Char} {text : List Char} (h : c ∈ scrubTerminalControl text) :
    c ∈ text ∧ isC0 c = false := by
  obtain ⟨hmem, hc⟩ := List.mem_filter.mp h
  have hsub := ((sub_sublist matchEsc 0 _).trans (sub_sublist matchCsi 0 _)).trans
    (sub_sublist matchOsc 0 text)
  exact ⟨hsub.subset hmem, by simpa using hc⟩

example : scrubTerminalControl (esc :: "[1;32mok".toList ++ ['\r']) = "ok".toList := by decide

/-! ### The streamer -/

/-- `_ConsoleStreamer` -/
structure Streamer where
  vmName : String
  pos : ℕ
  inLogBlock : Bool

/-- `_ConsoleStreamer(vm_name)` -/
def Streamer.init (vmName : String) : Streamer := ⟨vmName, 0, false⟩

/-- `sub in line` -/
def contains (sub line : Bytes) : Bool := (find sub line).isSome

/-- The text of a line that is logged. -/
def lineText (line : Bytes) : List Char := scrubTerminalControl (Text.decode line)

/-- One completed line: what is logged, and the flag after it. -/
def lineStep (inLogBlock : Bool) (line : Bytes) : List (List Char) × Bool :=
  if contains logBegin line then ([], true)
  else if contains logEnd line then ([], false)
  else if inLogBlock || contains marker line then ([], inLogBlock)
  else if lineText line = [] then ([], inLogBlock)
  else ([lineText line], inLogBlock)

/-- The loop of `feed`: what is logged, as the arguments of `_console.debug`, and the streamer
after it. -/
def Streamer.feedLoop (buffer : Bytes) : ℕ → Streamer → List (String × List Char) × Streamer
  | 0, s => ([], s)
  | fuel + 1, s =>
    match findFrom (ascii "\n") buffer s.pos with
    | none => ([], s)
    | some nl =>
      let step := lineStep s.inLogBlock ((buffer.take nl).drop s.pos)
      let rest := feedLoop buffer fuel ⟨s.vmName, nl + 1, step.2⟩
      (step.1.map (s.vmName, ·) ++ rest.1, rest.2)

/-- `_ConsoleStreamer.feed`; every turn of the loop passes a byte. -/
def Streamer.feed (buffer : Bytes) (s : Streamer) : List (String × List Char) × Streamer :=
  s.feedLoop buffer (buffer.length + 1)

/-- The calls of `feed`, one after the other. -/
def Streamer.feeds : Streamer → List Bytes → List (String × List Char) × Streamer
  | s, [] => ([], s)
  | s, buffer :: buffers =>
    let first := s.feed buffer
    let rest := feeds first.2 buffers
    (first.1 ++ rest.1, rest.2)

/-! ### The lines -/

/-- The lines in a row. -/
def run : Bool → List Bytes → List (List Char) × Bool
  | block, [] => ([], block)
  | block, line :: lines =>
    let rest := run (lineStep block line).2 lines
    ((lineStep block line).1 ++ rest.1, rest.2)

theorem run_append (block : Bool) (a b : List Bytes) :
    run block (a ++ b) = ((run block a).1 ++ (run (run block a).2 b).1, (run (run block a).2 b).2) := by
  induction a generalizing block with
  | nil => rfl
  | cons line a ih =>
    rw [List.cons_append, run, ih]
    simp only [run, List.append_assoc]

/-- Where the next line ends. -/
theorem findFrom_newline {buffer line rest : Bytes} {pos : ℕ} (h : buffer.drop pos = line ++ 10 :: rest)
    (hline : (10 : UInt8) ∉ line) :
    findFrom (ascii "\n") buffer pos = some (pos + line.length) ∧
      (buffer.take (pos + line.length)).drop pos = line ∧
      buffer.drop (pos + line.length + 1) = rest := by
  refine ⟨?_, ?_, ?_⟩
  · have hfind : find (ascii "\n") (line ++ 10 :: rest) = some line.length := by
      have hnot : ∀ c ∈ line, decide (c ≠ (10 : UInt8)) = true := by
        intro c hc
        exact decide_eq_true fun heq => hline (heq ▸ hc)
      rw [show ascii "\n" = [10] from rfl, Search.find_singleton, if_pos (by simp),
        List.takeWhile_append_of_pos hnot, List.takeWhile_cons_of_neg (by simp), List.append_nil]
    rw [findFrom, h, hfind]
    rfl
  · rw [List.drop_take, h, Nat.add_sub_cancel_left, List.take_left]
  · rw [Nat.add_assoc, ← List.drop_drop, h, ← List.drop_drop, List.drop_left]
    rfl

/-- The streamer behind the complete lines of what it was fed. -/
def Streamer.after (vmName : String) (buffer : Bytes) : Streamer :=
  ⟨vmName, buffer.length - (pending 10 buffer).length, (run false (complete 10 buffer)).2⟩

/-- The loop takes the complete lines behind the position, and stops behind the last of them. -/
theorem Streamer.feedLoop_eq (buffer : Bytes) {fuel : ℕ} (s : Streamer)
    (hpos : s.pos ≤ buffer.length) (hfuel : buffer.length - s.pos < fuel) :
    s.feedLoop buffer fuel =
      ((run s.inLogBlock (complete 10 (buffer.drop s.pos))).1.map (s.vmName, ·),
        ⟨s.vmName, buffer.length - (pending 10 (buffer.drop s.pos)).length,
          (run s.inLogBlock (complete 10 (buffer.drop s.pos))).2⟩) := by
  induction fuel generalizing s with
  | zero => omega
  | succ fuel ih =>
    by_cases h : (10 : UInt8) ∈ buffer.drop s.pos
    · obtain ⟨line, rest, hline, hdrop, -⟩ := Lines.exists_line h
      obtain ⟨hfind, htake, hrest⟩ := findFrom_newline hdrop hline
      have hlen : s.pos + line.length + 1 ≤ buffer.length := by
        have := congrArg List.length hdrop
        rw [List.length_drop, List.length_append, List.length_cons] at this
        omega
      rw [feedLoop]
      simp only [hfind, htake]
      rw [ih ⟨s.vmName, s.pos + line.length + 1, (lineStep s.inLogBlock line).2⟩ hlen
        (by simp only; omega)]
      simp only [hrest, hdrop]
      rw [Lines.complete_line hline, Lines.pending_line hline, run]
      simp only [List.map_append]
    · have hfind : findFrom (ascii "\n") buffer s.pos = none := by
        rw [findFrom, show ascii "\n" = [10] from rfl, Search.find_singleton, if_neg h]
        rfl
      rw [feedLoop]
      simp only [hfind]
      rw [Lines.complete_of_notMem h, Lines.pending_of_notMem h, List.length_drop]
      have hself : buffer.length - (buffer.length - s.pos) = s.pos := by omega
      rw [hself]
      rfl

/-- **What is fed next is read from where the lines were complete.** -/
theorem Streamer.feed_after (vmName : String) {b b' : Bytes} (h : b <+: b') :
    ((after vmName b).feed b').2 = after vmName b' ∧
      (run false (complete 10 b)).1.map (vmName, ·) ++ ((after vmName b).feed b').1 =
        (run false (complete 10 b')).1.map (vmName, ·) := by
  obtain ⟨more, rfl⟩ := h
  obtain ⟨done, hdone⟩ : pending 10 b <:+ b := Lines.pending_suffix b
  have hlen : done.length + (pending 10 b).length = b.length := by
    rw [← List.length_append, hdone]
  have hpos : (after vmName b).pos = done.length := by
    rw [after]
    simp only
    omega
  have hdrop : (b ++ more).drop (after vmName b).pos = pending 10 b ++ more := by
    rw [hpos]
    conv_lhs => rw [← hdone]
    rw [List.append_assoc, List.drop_left]
  have hle : (after vmName b).pos ≤ (b ++ more).length := by
    rw [hpos, List.length_append]
    omega
  have hfuel : (b ++ more).length - (after vmName b).pos < (b ++ more).length + 1 := by omega
  have hfeed := feedLoop_eq (b ++ more) (after vmName b) hle hfuel
  rw [hdrop, ← Lines.pending_append] at hfeed
  -- The flag is the one the complete lines leave.
  have hrun := run_append false (complete 10 b) (complete 10 (pending 10 b ++ more))
  rw [← Lines.complete_append] at hrun
  rw [feed, hfeed]
  constructor
  · have hafter : after vmName (b ++ more) = ⟨vmName,
        (b ++ more).length - (pending 10 (b ++ more)).length, (run false (complete 10 (b ++ more))).2⟩ := rfl
    rw [hafter, hrun]
    rfl
  · rw [hrun, List.map_append]
    rfl

/-- The calls together log what the complete lines of the last buffer are. -/
theorem Streamer.feeds_after (vmName : String) {b : Bytes} {buffers : List Bytes}
    (h : List.IsChain (· <+: ·) (b :: buffers)) :
    (run false (complete 10 b)).1.map (vmName, ·) ++ ((after vmName b).feeds buffers).1 =
      (run false (complete 10 ((b :: buffers).getLast (List.cons_ne_nil b buffers)))).1.map (vmName, ·) := by
  induction buffers generalizing b with
  | nil =>
    rw [feeds, List.append_nil]
    rfl
  | cons b' buffers ih =>
    obtain ⟨hstep, hchain⟩ := List.isChain_cons_cons.mp h
    obtain ⟨hstate, hout⟩ := feed_after vmName hstep
    rw [feeds, ← List.append_assoc, hout, hstate, ih hchain]
    rfl

/-! ### What is logged -/

/-- Behind these lines the framed log is open: some line began it, and none behind that line
ended it. -/
def Inside (before : List Bytes) : Prop :=
  ∃ l₁ b l₂, before = l₁ ++ b :: l₂ ∧ logBegin <:+: b ∧ ∀ l ∈ l₂, ¬logEnd <:+: l

theorem contains_iff {sub line : Bytes} : contains sub line = true ↔ sub <:+: line := by
  rw [contains, Option.isSome_iff_ne_none, ne_eq, Search.find_eq_none, not_not]

theorem inside_concat {before : List Bytes} {line : Bytes} :
    Inside (before ++ [line]) ↔ logBegin <:+: line ∨ Inside before ∧ ¬logEnd <:+: line := by
  constructor
  · rintro ⟨l₁, b, l₂, heq, hbegin, hopen⟩
    rcases List.eq_nil_or_concat l₂ with rfl | ⟨l₂, last, rfl⟩
    · obtain ⟨-, hb⟩ := List.append_inj' heq rfl
      rw [(List.cons.inj hb).1]
      exact .inl hbegin
    · rw [List.concat_eq_append, ← List.cons_append, ← List.append_assoc] at heq
      obtain ⟨hfront, hlast⟩ := List.append_inj' heq rfl
      rw [List.concat_eq_append] at hopen
      refine .inr ⟨⟨l₁, b, l₂, hfront, hbegin, fun l hl => hopen l (List.mem_append_left _ hl)⟩, ?_⟩
      rw [(List.cons.inj hlast).1]
      exact hopen last (by simp)
  · rintro (hbegin | ⟨⟨l₁, b, l₂, rfl, hbegin, hopen⟩, hend⟩)
    · exact ⟨before, line, [], rfl, hbegin, by simp⟩
    · refine ⟨l₁, b, l₂ ++ [line], by simp, hbegin, fun l hl => ?_⟩
      rcases List.mem_append.mp hl with hl | hl
      · exact hopen l hl
      · rw [List.mem_singleton.mp hl]
        exact hend

/-- A line the operator sees: outside of the framing, and with a text. -/
def Visible (before : List Bytes) (line : Bytes) : Prop :=
  ¬marker <:+: line ∧ ¬logBegin <:+: line ∧ ¬logEnd <:+: line ∧ ¬Inside before ∧ lineText line ≠ []

/-- The flag after a line, and what is logged of it. -/
theorem lineStep_spec {before : List Bytes} {block : Bool} (hblock : block = true ↔ Inside before)
    (line : Bytes) : ((lineStep block line).2 = true ↔ Inside (before ++ [line])) ∧
      (Visible before line → (lineStep block line).1 = [lineText line]) ∧
      (¬Visible before line → (lineStep block line).1 = []) := by
  rw [inside_concat]
  unfold lineStep Visible
  simp only [← contains_iff, ← hblock]
  generalize contains logBegin line = opens, contains logEnd line = closes,
    contains marker line = record, lineText line = text
  by_cases htext : text = []
  · cases opens <;> cases closes <;> cases record <;> cases block <;> simp [htext]
  · cases opens <;> cases closes <;> cases record <;> cases block <;> simp [htext]

theorem run_flag (lines : List Bytes) : (run false lines).2 = true ↔ Inside lines := by
  induction lines using List.reverseRecOn with
  | nil => simp [run, Inside]
  | append_singleton lines line ih =>
    rw [run_append]
    exact (lineStep_spec ih line).1

instance : DecidablePred Inside := fun lines => decidable_of_iff _ (run_flag lines)

instance (before : List Bytes) (line : Bytes) : Decidable (Visible before line) :=
  inferInstanceAs (Decidable (_ ∧ _))

/-- The texts of the visible lines, in order. -/
def mirrored (lines : List Bytes) : List (List Char) :=
  lines.zipIdx.filterMap fun p => if Visible (lines.take p.2) p.1 then some (lineText p.1) else none

theorem mirrored_concat (lines : List Bytes) (line : Bytes) :
    mirrored (lines ++ [line]) = mirrored lines ++ if Visible lines line then [lineText line] else [] := by
  unfold mirrored
  rw [List.zipIdx_append, List.filterMap_append]
  congr 1
  · refine List.filterMap_congr fun p hp => ?_
    have hlt : p.2 < lines.length := by
      have := List.snd_lt_of_mem_zipIdx hp
      omega
    rw [List.take_append_of_le_length hlt.le]
  · rw [Nat.zero_add, List.zipIdx_singleton]
    by_cases h : Visible lines line
    · simp [h]
    · simp [h]

theorem run_eq_mirrored (lines : List Bytes) : (run false lines).1 = mirrored lines := by
  induction lines using List.reverseRecOn with
  | nil => rfl
  | append_singleton lines line ih =>
    obtain ⟨-, hvisible, hhidden⟩ := lineStep_spec (run_flag lines) line
    have hrun : (run false (lines ++ [line])).1 =
        (run false lines).1 ++ (lineStep (run false lines).2 line).1 := by
      rw [run_append, run, run, List.append_nil]
    rw [hrun, ih, mirrored_concat]
    by_cases h : Visible lines line
    · rw [hvisible h, if_pos h]
    · rw [hhidden h, if_neg h]

/-- The text of a line has no control character but the tab. -/
theorem lineText_printable {line : Bytes} (hline : (10 : UInt8) ∉ line) {c : Char}
    (hc : c ∈ lineText line) (hlow : c.toNat < 0x20) : c = '\t' := by
  obtain ⟨hmem, hkept⟩ := mem_scrub hc
  simp only [isC0, Bool.or_eq_false_iff, Bool.and_eq_false_iff, decide_eq_false_iff_not] at hkept
  have hcases : c.toNat = 9 ∨ c.toNat = 10 := by omega
  rcases hcases with h | h
  · rw [← Char.ofNat_toNat c, h]
  · have hc : c = '\n' := by rw [← Char.ofNat_toNat c, h]
    exact absurd (Text.decode_newline (hc ▸ hmem)) hline

theorem mem_mirrored {lines : List Bytes} {text : List Char} (h : text ∈ mirrored lines) :
    ∃ line ∈ lines, text = lineText line := by
  obtain ⟨p, hp, htext⟩ := List.mem_filterMap.mp h
  split_ifs at htext
  exact ⟨p.1, List.fst_mem_of_mem_zipIdx hp, (Option.some.inj htext).symm⟩

/-- **However the console arrives, its visible lines are logged.** The buffers grow to the stream,
cut anywhere; what is logged is what one look at the stream logs, the lines that are complete and
visible, and no control character but the tab is in them. -/
theorem console_mirrored (vmName : String) (stream : Bytes) (buffers : List Bytes)
    (hgrow : List.IsChain (· <+: ·) (buffers ++ [stream])) :
    ((Streamer.init vmName).feeds (buffers ++ [stream])).1 = ((Streamer.init vmName).feed stream).1 ∧
      ((Streamer.init vmName).feed stream).1 =
        (mirrored (stream.splitOn 10).dropLast).map (vmName, ·) ∧
      ∀ logged ∈ ((Streamer.init vmName).feed stream).1, ∀ c ∈ logged.2, c.toNat < 0x20 → c = '\t' := by
  have hall : ∀ buffers, List.IsChain (· <+: ·) (buffers ++ [stream]) →
      ((Streamer.init vmName).feeds (buffers ++ [stream])).1 =
        (mirrored (complete 10 stream)).map (vmName, ·) := by
    intro buffers h
    have hchain : List.IsChain (· <+: ·) ([] :: (buffers ++ [stream])) :=
      h.cons fun b _ => List.nil_prefix
    have hlast : ([] :: (buffers ++ [stream])).getLast (List.cons_ne_nil _ _) = stream := by simp
    have hout := Streamer.feeds_after vmName hchain
    rw [hlast, run_eq_mirrored, run_eq_mirrored] at hout
    exact hout
  have hone : ((Streamer.init vmName).feed stream).1 = (mirrored (complete 10 stream)).map (vmName, ·) := by
    have h := hall [] (List.IsChain.singleton stream)
    rw [List.nil_append, Streamer.feeds, Streamer.feeds, List.append_nil] at h
    exact h
  refine ⟨by rw [hall buffers hgrow, hone], hone, ?_⟩
  intro logged hlogged c hc hlow
  rw [hone] at hlogged
  obtain ⟨text, htext, rfl⟩ := List.mem_map.mp hlogged
  obtain ⟨line, hline, rfl⟩ := mem_mirrored htext
  exact lineText_printable (Lines.notMem_of_mem_complete line hline) hc hlow

/-- A console that is cut within a marker. -/
theorem cut_marker_mirrored :
    ((Streamer.init "web").feeds ([ascii "up\nTESTRANGE-LOG", ascii "up\nTESTRANGE-LOG-BEGIN\nAAAA\n"] ++
      [ascii "up\nTESTRANGE-LOG-BEGIN\nAAAA\n"])).1 = [("web", "up".toList)] := by
  rw [(console_mirrored "web" (ascii "up\nTESTRANGE-LOG-BEGIN\nAAAA\n")
    [ascii "up\nTESTRANGE-LOG", ascii "up\nTESTRANGE-LOG-BEGIN\nAAAA\n"] (by decide)).1]
  decide

end Console

end BuildResult

end TestRange
