/-
The ESXi console sink: the serial log of a build VM, read over `/folder`.

The guest appends to its log while the VM is on.  The reader fetches what is new from an
offset, looks at the power state when nothing came, and reads once more when the VM is off.
A read that is refused for a moment counts as one that found nothing.

* `folderReadFrom` — what a response stands for;
* `Sink` — the reader, at its point of the loop;
* `Tail.Step` — the guest, the power, and the reader's requests in any order;
* `Tail.Run.delivers_iff` — what is yielded is always a prefix of the log, and all of it at the
  end exactly where a read was answered with content after the log's last growth.
-/
import TestRange.Lib.Trace

namespace TestRange

namespace EsxiSerial

/-! ### One read -/

/-- A response of the file service. -/
structure Response where
  status : ℕ
  content : List UInt8

/-- What a request may raise. -/
inductive HttpError
  | status (code : ℕ)

/-- `raise_for_status()` -/
def raiseForStatus (resp : Response) : Except HttpError Unit :=
  if 400 ≤ resp.status ∧ resp.status < 600 then .error (.status resp.status) else .ok ()

/-- The new bytes of a file from an offset. -/
def folderReadFrom (resp : Response) (offset : ℕ) : Except HttpError (List UInt8) :=
  if resp.status = 206 then .ok resp.content
  else if resp.status = 200 then .ok (resp.content.drop offset)
  else if resp.status = 404 ∨ resp.status = 416 ∨ resp.status = 429 ∨ resp.status = 503 then .ok []
  else
    match raiseForStatus resp with
    | .ok () => .ok []
    | .error e => .error e

/-- A response with content, whole or from the offset. -/
def Response.HasContent (resp : Response) : Prop := resp.status = 206 ∨ resp.status = 200

instance (resp : Response) : Decidable resp.HasContent := inferInstanceAs (Decidable (_ ∨ _))

/-- What a server may answer: content is that of the file, and anything may be refused. -/
structure Answers (file : List UInt8) (offset : ℕ) (resp : Response) : Prop where
  partialContent : resp.status = 206 → resp.content = file.drop offset
  whole : resp.status = 200 → resp.content = file

theorem folderReadFrom_of_content {file : List UInt8} {offset : ℕ} {resp : Response}
    (h : Answers file offset resp) (hcontent : resp.HasContent) :
    folderReadFrom resp offset = .ok (file.drop offset) := by
  unfold folderReadFrom
  rcases hcontent with h206 | h200
  · rw [if_pos h206, h.partialContent h206]
  · rw [if_neg (by omega), if_pos h200, h.whole h200]

/-- A response without content is nothing new, or raises. -/
theorem folderReadFrom_of_refused (offset : ℕ) {resp : Response} (hcontent : ¬ resp.HasContent) :
    folderReadFrom resp offset = .ok [] ∨ ∃ e, folderReadFrom resp offset = .error e := by
  unfold folderReadFrom
  rw [if_neg fun h => hcontent (.inl h), if_neg fun h => hcontent (.inr h)]
  split_ifs with htolerated
  · exact .inl rfl
  · cases raiseForStatus resp with
    | ok u => exact .inl rfl
    | error e => exact .inr ⟨e, rfl⟩

/-! ### The reader -/

/-- Where the reader is. -/
inductive Point
  /-- About to read at the head of the loop. -/
  | poll
  /-- Nothing came; about to look at the power state. -/
  | look
  /-- The VM is off; about to read for the last time. -/
  | drain
  | ended
  | raised
  deriving DecidableEq

/-- The generator: its offset, what it has yielded, and where it is. -/
structure Sink where
  offset : ℕ
  yielded : List (List UInt8)
  point : Point

namespace Sink

/-- The reader is started. -/
def init : Sink := ⟨0, [], .poll⟩

/-- The read at the head of the loop. -/
def poll (k : Sink) (chunk : List UInt8) : Sink :=
  if chunk ≠ [] then ⟨k.offset + chunk.length, k.yielded ++ [chunk], .poll⟩
  else { k with point := .look }

/-- The VM is off, or a heartbeat. -/
def look (k : Sink) (off : Bool) : Sink :=
  if off then { k with point := .drain } else ⟨k.offset, k.yielded ++ [[]], .poll⟩

/-- The last read. -/
def drain (k : Sink) (tail : List UInt8) : Sink :=
  if tail ≠ [] then ⟨k.offset, k.yielded ++ [tail], .ended⟩ else { k with point := .ended }

/-- A response arrives. -/
def receive (k : Sink) (resp : Response) : Option Sink :=
  match k.point with
  | .poll =>
    match folderReadFrom resp k.offset with
    | .ok chunk => some (k.poll chunk)
    | .error _ => some { k with point := .raised }
  | .drain =>
    match folderReadFrom resp k.offset with
    | .ok tail => some (k.drain tail)
    | .error _ => some { k with point := .raised }
  | _ => none

/-- The concatenation of what was yielded. -/
def delivered (k : Sink) : List UInt8 := k.yielded.flatten

theorem delivered_poll (k : Sink) (chunk : List UInt8) :
    (k.poll chunk).delivered = k.delivered ++ chunk := by
  unfold poll
  split_ifs with h
  · simp [delivered]
  · rw [not_not.mp h, List.append_nil]
    rfl

theorem delivered_drain (k : Sink) (tail : List UInt8) :
    (k.drain tail).delivered = k.delivered ++ tail := by
  unfold drain
  split_ifs with h
  · simp [delivered]
  · rw [not_not.mp h, List.append_nil]
    rfl

theorem delivered_look (k : Sink) (off : Bool) : (k.look off).delivered = k.delivered := by
  cases off with
  | true => rfl
  | false => simp [look, delivered]

theorem offset_look (k : Sink) (off : Bool) : (k.look off).offset = k.offset := by
  cases off <;> rfl

/-- The reader looks for the end only at a VM that is off. -/
theorem off_of_look {k : Sink} {off : Bool}
    (h : (k.look off).point = .drain ∨ (k.look off).point = .ended) : off = true := by
  cases off with
  | true => rfl
  | false => rcases h with h | h <;> cases h

/-- The offset moves with what is yielded. -/
theorem offset_poll {k : Sink} (h : k.offset = k.delivered.length) (chunk : List UInt8) :
    (k.poll chunk).offset = (k.poll chunk).delivered.length := by
  rw [delivered_poll, List.length_append, ← h]
  unfold poll
  split_ifs with hchunk
  · rfl
  · rw [not_not.mp hchunk]
    rfl

theorem point_poll (k : Sink) (chunk : List UInt8) :
    (k.poll chunk).point = .poll ∨ (k.poll chunk).point = .look := by
  unfold poll
  split_ifs
  · exact .inl rfl
  · exact .inr rfl

theorem point_drain (k : Sink) (tail : List UInt8) : (k.drain tail).point = .ended := by
  unfold drain
  split_ifs <;> rfl

/-- A response is received at one of the two reads; what it stands for is appended, or it
raises. -/
theorem receive_cases {k k' : Sink} {resp : Response} (h : k.receive resp = some k') :
    (k.point = .poll ∧ ∃ chunk, folderReadFrom resp k.offset = .ok chunk ∧ k' = k.poll chunk) ∨
    (k.point = .drain ∧ ∃ tail, folderReadFrom resp k.offset = .ok tail ∧ k' = k.drain tail) ∨
    ((k.point = .poll ∨ k.point = .drain) ∧ (∃ e, folderReadFrom resp k.offset = .error e) ∧
      k' = { k with point := .raised }) := by
  unfold receive at h
  cases hpoint : k.point with
  | poll =>
    rw [hpoint] at h
    cases hread : folderReadFrom resp k.offset with
    | ok chunk =>
      rw [hread] at h
      exact .inl ⟨rfl, chunk, rfl, (Option.some.inj h).symm⟩
    | error e =>
      rw [hread] at h
      exact .inr (.inr ⟨.inl rfl, ⟨e, rfl⟩, (Option.some.inj h).symm⟩)
  | drain =>
    rw [hpoint] at h
    cases hread : folderReadFrom resp k.offset with
    | ok tail =>
      rw [hread] at h
      exact .inr (.inl ⟨rfl, tail, rfl, (Option.some.inj h).symm⟩)
    | error e =>
      rw [hread] at h
      exact .inr (.inr ⟨.inr rfl, ⟨e, rfl⟩, (Option.some.inj h).symm⟩)
  | look =>
    rw [hpoint] at h
    cases h
  | ended =>
    rw [hpoint] at h
    cases h
  | raised =>
    rw [hpoint] at h
    cases h

end Sink

/-! ### The guest, the power and the reader -/

/-- What happens. -/
inductive Event
  | grow (more : List UInt8)
  | powerOff
  | read (resp : Response)
  | look

/-- The log, the power, and the reader. -/
structure Tail where
  file : List UInt8
  off : Bool
  /-- The log as it was when the VM was off. -/
  final : Option (List UInt8)
  sink : Sink

namespace Tail

/-- The log may hold something when the reader starts. -/
def start (file : List UInt8) : Tail := ⟨file, false, none, .init⟩

/-- One step: the log grows only while the VM is on. -/
inductive Step : Tail → Event → Tail → Prop
  | grow {t : Tail} (more : List UInt8) (hon : t.off = false) :
      Step t (.grow more) { t with file := t.file ++ more }
  | powerOff {t : Tail} (hon : t.off = false) :
      Step t .powerOff { t with off := true, final := some t.file }
  | read {t : Tail} {resp : Response} {k : Sink} (hanswer : Answers t.file t.sink.offset resp)
      (hk : t.sink.receive resp = some k) : Step t (.read resp) { t with sink := k }
  | look {t : Tail} (hpoint : t.sink.point = .look) :
      Step t .look { t with sink := t.sink.look t.off }

/-- Whether the reader has caught up: content was read after the last growth. -/
def caughtUp (start : List UInt8) (tr : List Event) : Bool :=
  tr.foldl (fun done e =>
    match e with
    | .grow more => done && more.isEmpty
    | .read resp => done || decide resp.HasContent
    | _ => done) start.isEmpty

/-- What is kept: the offset is at the end of what was yielded, which is a prefix of the log. -/
structure Inv (start : List UInt8) (tr : List Event) (t : Tail) : Prop where
  delivered : t.sink.delivered <+: t.file
  offset : t.sink.point ≠ .ended → t.sink.offset = t.sink.delivered.length
  caught : caughtUp start tr = true ↔ t.sink.delivered = t.file
  final : t.off = true → t.final = some t.file
  off : t.sink.point = .drain ∨ t.sink.point = .ended → t.off = true

theorem inv_start (file : List UInt8) : Inv file [] (start file) where
  delivered := List.nil_prefix
  offset _ := rfl
  caught := by
    show file.isEmpty = true ↔ [] = file
    rw [List.isEmpty_iff, eq_comm]
  final h := by cases h
  off h := by rcases h with h | h <;> cases h

theorem caughtUp_concat (start : List UInt8) (tr : List Event) (e : Event) :
    caughtUp start (tr ++ [e]) =
      match e with
      | .grow more => caughtUp start tr && more.isEmpty
      | .read resp => caughtUp start tr || decide resp.HasContent
      | _ => caughtUp start tr := by
  rw [caughtUp, List.foldl_append]
  rfl

variable {f₀ : List UInt8} {tr : List Event} {t : Tail}

/-- The log grows beyond what was yielded. -/
theorem Inv.grow (h : Inv f₀ tr t) (hon : t.off = false) (more : List UInt8) :
    Inv f₀ (tr ++ [.grow more]) { t with file := t.file ++ more } where
  delivered := h.delivered.trans (List.prefix_append _ _)
  offset := h.offset
  caught := by
    rw [caughtUp_concat, Bool.and_eq_true, h.caught, List.isEmpty_iff]
    show _ ↔ t.sink.delivered = t.file ++ more
    constructor
    · rintro ⟨heq, rfl⟩
      rw [heq, List.append_nil]
    · intro heq
      -- What was yielded is no longer than the log before.
      have hle := h.delivered.length_le
      have hlength := congrArg List.length heq
      rw [List.length_append] at hlength
      have hmore : more = [] := List.eq_nil_of_length_eq_zero (by omega)
      exact ⟨by rw [heq, hmore, List.append_nil], hmore⟩
  final hoff := by
    rw [hon] at hoff
    cases hoff
  off := h.off

theorem Inv.powerOff (h : Inv f₀ tr t) :
    Inv f₀ (tr ++ [.powerOff]) { t with off := true, final := some t.file } where
  delivered := h.delivered
  offset := h.offset
  caught := by
    rw [caughtUp_concat]
    exact h.caught
  final _ := rfl
  off _ := rfl

theorem Inv.look (h : Inv f₀ tr t) (hpoint : t.sink.point = .look) :
    Inv f₀ (tr ++ [.look]) { t with sink := t.sink.look t.off } where
  delivered := by
    show (t.sink.look t.off).delivered <+: t.file
    rw [Sink.delivered_look]
    exact h.delivered
  offset _ := by
    show (t.sink.look t.off).offset = (t.sink.look t.off).delivered.length
    rw [Sink.offset_look, Sink.delivered_look]
    exact h.offset (by rw [hpoint]; decide)
  caught := by
    rw [caughtUp_concat]
    show _ ↔ (t.sink.look t.off).delivered = t.file
    rw [Sink.delivered_look]
    exact h.caught
  final := h.final
  off := Sink.off_of_look

/-- A chunk from the offset on completes what was yielded. -/
theorem Inv.append_rest (h : Inv f₀ tr t) (hpoint : t.sink.point ≠ .ended) :
    t.sink.delivered ++ t.file.drop t.sink.offset = t.file := by
  rw [h.offset hpoint]
  exact List.prefix_iff_eq_append.mp h.delivered

/-- What a read appends: all there is, where it was answered with content, and nothing
otherwise. -/
theorem Inv.append_chunk (h : Inv f₀ tr t) {resp : Response} {chunk : List UInt8}
    (hpoint : t.sink.point ≠ .ended) (hanswer : Answers t.file t.sink.offset resp)
    (hread : folderReadFrom resp t.sink.offset = .ok chunk) :
    t.sink.delivered ++ chunk = if resp.HasContent then t.file else t.sink.delivered := by
  split_ifs with hcontent
  · rw [folderReadFrom_of_content hanswer hcontent] at hread
    rw [← Except.ok.inj hread]
    exact h.append_rest hpoint
  · rcases folderReadFrom_of_refused t.sink.offset hcontent with hempty | ⟨e, herror⟩
    · rw [hempty] at hread
      rw [← Except.ok.inj hread, List.append_nil]
    · rw [herror] at hread
      cases hread

/-- A read keeps the invariant, whatever becomes of the reader's offset at its end. -/
theorem Inv.of_delivered (h : Inv f₀ tr t) {resp : Response} {k : Sink}
    (hdelivered : k.delivered = if resp.HasContent then t.file else t.sink.delivered)
    (hoffset : k.point ≠ .ended → k.offset = k.delivered.length)
    (hoff : k.point = .drain ∨ k.point = .ended → t.off = true) :
    Inv f₀ (tr ++ [.read resp]) { t with sink := k } where
  delivered := by
    show k.delivered <+: t.file
    rw [hdelivered]
    split_ifs
    · exact List.prefix_rfl
    · exact h.delivered
  offset := hoffset
  caught := by
    rw [caughtUp_concat, Bool.or_eq_true, decide_eq_true_iff, h.caught]
    show _ ↔ k.delivered = t.file
    rw [hdelivered]
    split_ifs with hcontent
    · exact ⟨fun _ => rfl, fun _ => .inr hcontent⟩
    · exact ⟨fun hor => hor.resolve_right hcontent, .inl⟩
  final := h.final
  off := hoff

theorem Inv.read (h : Inv f₀ tr t) {resp : Response} {k : Sink}
    (hanswer : Answers t.file t.sink.offset resp) (hk : t.sink.receive resp = some k) :
    Inv f₀ (tr ++ [.read resp]) { t with sink := k } := by
  rcases Sink.receive_cases hk with ⟨hpoint, chunk, hread, rfl⟩ | ⟨hpoint, tail, hread, rfl⟩ |
    ⟨hpoint, ⟨e, hread⟩, rfl⟩
  · have hnot : t.sink.point ≠ .ended := by
      rw [hpoint]
      decide
    refine h.of_delivered ?_ (fun _ => Sink.offset_poll (h.offset hnot) chunk) ?_
    · rw [Sink.delivered_poll, h.append_chunk hnot hanswer hread]
    · intro hp
      rcases Sink.point_poll t.sink chunk with heq | heq <;> rw [heq] at hp <;>
        rcases hp with hp | hp <;> cases hp
  · have hnot : t.sink.point ≠ .ended := by
      rw [hpoint]
      decide
    refine h.of_delivered ?_ (fun hp => absurd (Sink.point_drain _ _) hp) fun _ => h.off (.inl hpoint)
    rw [Sink.delivered_drain, h.append_chunk hnot hanswer hread]
  · have hnot : t.sink.point ≠ .ended := by
      rcases hpoint with hpoint | hpoint <;> rw [hpoint] <;> decide
    have hcontent : ¬ resp.HasContent := by
      intro hcontent
      rw [folderReadFrom_of_content hanswer hcontent] at hread
      cases hread
    refine h.of_delivered ?_ (fun _ => h.offset hnot) ?_
    · rw [if_neg hcontent]
      rfl
    · rintro (hp | hp) <;> cases hp

/-- The invariant holds of every run. -/
theorem inv_of_run (h : Trace.Run Step (start f₀) tr t) : Inv f₀ tr t := by
  refine h.keeps (inv_start f₀) fun tr t e t' ih hstep => ?_
  cases hstep with
  | grow more hon => exact ih.grow hon more
  | powerOff hon => exact ih.powerOff
  | read hanswer hk => exact ih.read hanswer hk
  | look hpoint => exact ih.look hpoint

/-- **What the sink yields is always a prefix of the log; when it ends, it is the whole log as it
was when the VM was off exactly where the log's last growth was followed by a read that was
answered with content.** -/
theorem delivers_iff (h : Trace.Run Step (start f₀) tr t) :
    t.sink.delivered <+: t.file ∧
      (t.sink.point = .ended → ∃ final, t.final = some final ∧
        (t.sink.delivered = final ↔ caughtUp f₀ tr = true)) := by
  have hinv := inv_of_run h
  exact ⟨hinv.delivered, fun hended => ⟨t.file, hinv.final (hinv.off (.inr hended)),
    hinv.caught.symm⟩⟩

/-- The guest writes a byte, which is read before the VM is off; the last read is refused. -/
theorem delivers_before_off :
    ([82] : List UInt8) <+: [82] ∧ (Point.ended = .ended → ∃ final, some [82] = some final ∧
      (([82] : List UInt8) = final ↔ caughtUp [] [.grow [82], .read ⟨206, [82]⟩, .powerOff,
        .read ⟨416, []⟩, .look, .read ⟨503, []⟩] = true)) := by
  have hrun : Trace.Run Step (start []) [.grow [82], .read ⟨206, [82]⟩, .powerOff,
      .read ⟨416, []⟩, .look, .read ⟨503, []⟩] ⟨[82], true, some [82], ⟨1, [[82]], .ended⟩⟩ :=
    (((((Trace.Run.start.step (.grow [82] rfl)).step
      (.read ⟨fun _ => rfl, by decide⟩ rfl)).step (.powerOff rfl)).step
        (.read ⟨by decide, by decide⟩ rfl)).step (.look rfl)).step
          (.read ⟨by decide, by decide⟩ rfl)
  exact delivers_iff hrun

/-- The guest writes a byte and powers off; the reader is refused twice, and ends without it. -/
theorem drain_refused : ∃ t, Trace.Run Step (start []) [.grow [82], .powerOff, .read ⟨503, []⟩,
    .look, .read ⟨503, []⟩] t ∧ t.sink.point = .ended ∧ t.final = some [82] ∧
      t.sink.delivered = [] :=
  ⟨⟨[82], true, some [82], ⟨0, [], .ended⟩⟩,
    ((((Trace.Run.start.step (.grow [82] rfl)).step (.powerOff rfl)).step
      (.read ⟨by decide, by decide⟩ rfl)).step (.look rfl)).step (.read ⟨by decide, by decide⟩ rfl),
    rfl, rfl, rfl⟩

end Tail

end EsxiSerial

end TestRange
