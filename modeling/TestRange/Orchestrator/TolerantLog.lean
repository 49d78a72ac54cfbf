/-
The log of a failed build, as it is decoded from a shared console.

What is not of the alphabet is dropped, a lone last character too, and the padding is put back
before the decoder of the library reads the rest.

* `attempt`, `decodeB64Tolerant` — the decoding, with the errors of the decoder;
* `attempt_eq` — there are none;
* `tolerant_decoding` — a log that is complete is read whole, and one that is cut off is read as
  far as its characters go.
-/
import TestRange.Orchestrator.BuildResult

namespace TestRange

namespace BuildResult

/-- What of a text is decoded: its characters, without a lone last one, padded. -/
def padded (raw : Bytes) : Bytes :=
  let compact := raw.filter Base64.isAlphabet
  let rem := compact.length % 4
  if rem = 1 then compact.dropLast
  else if rem ≠ 0 then compact ++ List.replicate (4 - rem) Base64.pad
  else compact

/-- The `try` of `_decode_b64_tolerant`. -/
def attempt (raw : Bytes) : Except Base64.DecodeError Bytes :=
  if padded raw = [] then .ok [] else Base64.a2b (padded raw)

/-- `_decode_b64_tolerant`, whose `except` answers with nothing. -/
def decodeB64Tolerant (raw : Bytes) : Bytes :=
  match attempt raw with
  | .ok log => log
  | .error _ => []

/-- What is decoded is some characters of the alphabet with their padding, and they decode as all
characters do. -/
theorem padded_spec (raw : Bytes) : ∃ cs, (∀ c ∈ cs, Base64.isAlphabet c = true) ∧
    cs.length % 4 ≠ 1 ∧ padded raw = cs ++ Base64.padding cs.length ∧
    Base64.decodeBare (cs.filterMap Base64.value) =
      Base64.decodeBare ((raw.filter Base64.isAlphabet).filterMap Base64.value) := by
  unfold padded
  have hall : ∀ c ∈ raw.filter Base64.isAlphabet, Base64.isAlphabet c = true :=
    fun c hc => (List.mem_filter.mp hc).2
  generalize raw.filter Base64.isAlphabet = compact at hall
  dsimp only
  split_ifs with hone hzero
  · obtain ⟨front, c, rfl⟩ : ∃ front c, compact = front ++ [c] := by
      rcases List.eq_nil_or_concat compact with rfl | ⟨front, c, h⟩
      · cases hone
      · exact ⟨front, c, by rw [h, List.concat_eq_append]⟩
    have hfront : ∀ d ∈ front, Base64.isAlphabet d = true :=
      fun d hd => hall d (List.mem_append_left _ hd)
    have hlen : front.length % 4 = 0 := by
      rw [List.length_append, List.length_singleton] at hone
      omega
    obtain ⟨n, hn⟩ := Option.isSome_iff_exists.mp (hall c (by simp))
    refine ⟨front, hfront, by omega, ?_, ?_⟩
    · rw [List.dropLast_concat, Base64.padding, if_pos hlen, List.append_nil]
    · have hvalues := Base64.length_filterMap_value hfront
      rw [List.filterMap_append, List.filterMap_cons_some hn, List.filterMap_nil,
        Base64.decodeBare_append (by omega)]
  · exact ⟨compact, hall, hone, by rw [Base64.padding, if_neg hzero], rfl⟩
  · have hlen : compact.length % 4 = 0 := not_not.mp hzero
    exact ⟨compact, hall, by omega, by rw [Base64.padding, if_pos hlen, List.append_nil], rfl⟩

/-- **The decoder makes no error**, whatever the text. -/
theorem attempt_eq (raw : Bytes) : attempt raw =
    .ok (Base64.decodeBare ((raw.filter Base64.isAlphabet).filterMap Base64.value)) := by
  obtain ⟨cs, hcs, hlen, hpadded, hsame⟩ := padded_spec raw
  unfold attempt
  rw [← hsame]
  split_ifs with hnil
  · have hempty : cs = [] := (List.append_eq_nil_iff.mp (hpadded.symm.trans hnil)).1
    rw [hempty]
    rfl
  · rw [hpadded, Base64.a2b_pads cs hcs hlen]

theorem decodeB64Tolerant_eq (raw : Bytes) : decodeB64Tolerant raw =
    Base64.decodeBare ((raw.filter Base64.isAlphabet).filterMap Base64.value) := by
  rw [decodeB64Tolerant, attempt_eq]

/-- The decoding that the records are parsed with. -/
theorem decodeTolerant_eq_decodeB64Tolerant (raw : Bytes) :
    decodeTolerant raw = decodeB64Tolerant raw := by
  rw [decodeTolerant_eq, decodeB64Tolerant_eq]

/-- What is decoded of the beginning of an encoded log, with foreign characters in it. -/
theorem decodeB64Tolerant_noise {log text raw : Bytes} (htext : text <+: Base64.encode log)
    (hraw : Base64.Noise text raw) : decodeB64Tolerant raw = log.take (text.length * 6 / 8) := by
  have hcut : text = (Base64.encode log).take text.length := List.prefix_iff_eq_take.mp htext
  rw [decodeB64Tolerant_eq, hraw.filter_eq]
  conv_lhs => rw [hcut]
  rw [Base64.filter_take_encode, Base64.decodeBare_take_bare]

/-- **Tolerant decoding.**  The decoder never raises.  An encoded log with foreign characters in it,
its padding there or not, is read back; of one that is cut off, what is read is the beginning of
the log, and all bytes of the complete quanta are there. -/
theorem tolerant_decoding (raw log text : Bytes) :
    (∃ bytes, attempt raw = .ok bytes ∧ decodeB64Tolerant raw = bytes) ∧
    (Base64.Noise (Base64.encode log) raw → decodeB64Tolerant raw = log) ∧
    (text <+: Base64.encode log → Base64.Noise text raw →
      decodeB64Tolerant raw <+: log ∧
        min log.length (3 * (text.length / 4)) ≤ (decodeB64Tolerant raw).length) := by
  refine ⟨⟨_, attempt_eq raw, decodeB64Tolerant_eq raw⟩, fun hraw => ?_, fun htext hraw => ?_⟩
  · rw [decodeB64Tolerant_eq, hraw.filter_eq]
    have hall := Base64.filter_take_encode log (Base64.encode log).length
    rw [List.take_length, List.take_of_length_le] at hall
    · rw [hall, Base64.decodeBare_bare]
    · rw [Base64.encode, List.length_append]
      omega
  · rw [decodeB64Tolerant_noise htext hraw]
    refine ⟨List.take_prefix _ _, ?_⟩
    rw [List.length_take]
    omega

/-- Two bytes, with line breaks in their characters and without their padding; and a log of five bytes
whose end is lost after six characters, with a line break between them. -/
theorem damaged_logs_read : decodeB64Tolerant [65, 13, 81, 10, 73] = [1, 2] ∧
    decodeB64Tolerant [65, 81, 73, 68, 10, 66, 65] <+: [1, 2, 3, 4, 5] ∧
    3 ≤ (decodeB64Tolerant [65, 81, 73, 68, 10, 66, 65]).length := by
  have hwrapped : Base64.Noise (Base64.encode [1, 2]) [65, 13, 81, 10, 73] :=
    .keep 65 (.insert 13 (by decide) (.keep 81 (.insert 10 (by decide) (.keep 73 (.unpad .nil)))))
  have hcut : ([65, 81, 73, 68, 66, 65] : Bytes) <+: Base64.encode [1, 2, 3, 4, 5] := by decide
  have hbroken : Base64.Noise [65, 81, 73, 68, 66, 65] [65, 81, 73, 68, 10, 66, 65] :=
    .keep 65 (.keep 81 (.keep 73 (.keep 68 (.insert 10 (by decide) (.keep 66 (.keep 65 .nil))))))
  exact ⟨(tolerant_decoding _ [1, 2] []).2.1 hwrapped, (tolerant_decoding _ _ _).2.2 hcut hbroken⟩

end BuildResult

end TestRange
