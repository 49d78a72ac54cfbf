/-
Finding a text in another one, and splitting at it.

* `Search.find` — the first place of `sub` in a list;
* `Search.find_sep`, `Search.infix_sep` — what is not in `sub` separates what is searched;
* `Search.Unbordered`, `Search.find_self` — no place of a text without borders overlaps
  another one;
* `Search.glue`, `Search.split` — pieces joined by `sub`, and the pieces of a list;
* `Search.prefix_glue` — what the beginning of joined pieces is.
-/
import Mathlib.Data.List.Infix
import Mathlib.Data.List.TakeWhile

namespace Search

variable {α : Type} [DecidableEq α]

/-- The first place of `sub`. -/
def find (sub : List α) : List α → Option ℕ
  | [] => if sub = [] then some 0 else none
  | a :: as => if sub.isPrefixOf (a :: as) then some 0 else (find sub as).map (· + 1)

variable {sub x y z : List α} {b : α}

theorem find_at (h : sub <+: x) : find sub x = some 0 := by
  cases x with
  | nil => rw [List.prefix_nil.mp h, find, if_pos rfl]
  | cons a as => rw [find, if_pos (List.isPrefixOf_iff_prefix.mpr h)]

theorem find_cons {a : α} (h : ¬sub <+: a :: x) : find sub (a :: x) = (find sub x).map (· + 1) := by
  rw [find, if_neg (by simpa using h)]

/-- Where `sub` starts nowhere, it is searched on. -/
theorem find_skip (h : ∀ z, z ≠ [] → z <:+ x → ¬sub <+: z ++ y) :
    find sub (x ++ y) = (find sub y).map (· + x.length) := by
  induction x with
  | nil => simp
  | cons a x ih =>
    have hfront : ¬sub <+: a :: (x ++ y) := h (a :: x) (by simp) List.suffix_rfl
    have hrest := ih fun z hz hsuffix => h z hz (hsuffix.trans (List.suffix_cons a x))
    rw [List.cons_append, find_cons hfront, hrest, Option.map_map]
    congr 1

theorem find_eq_none : find sub x = none ↔ ¬sub <:+: x := by
  induction x with
  | nil =>
    rw [List.infix_nil]
    unfold find
    split_ifs with h <;> simp [h]
  | cons a x ih =>
    rw [List.infix_cons_iff, not_or]
    by_cases h : sub <+: a :: x
    · simp [find_at h, h]
    · rw [find_cons h, Option.map_eq_none_iff, ih]
      exact ⟨fun hx => ⟨h, hx⟩, fun hx => hx.2⟩

/-- What is found is there, and nowhere before. -/
theorem find_eq_some {n : ℕ} (h : find sub x = some n) :
    sub <+: x.drop n ∧ n ≤ x.length ∧ ∀ i, i < n → ¬sub <+: x.drop i := by
  induction x generalizing n with
  | nil =>
    unfold find at h
    split_ifs at h with hsub
    cases h
    exact ⟨by simp [hsub], by simp, fun i hi => absurd hi (Nat.not_lt_zero i)⟩
  | cons a x ih =>
    by_cases hfront : sub <+: a :: x
    · rw [find_at hfront] at h
      cases h
      exact ⟨hfront, by simp, fun i hi => absurd hi (Nat.not_lt_zero i)⟩
    · rw [find_cons hfront, Option.map_eq_some_iff] at h
      obtain ⟨m, hm, rfl⟩ := h
      obtain ⟨hat, hlen, hbefore⟩ := ih hm
      refine ⟨hat, by simpa using hlen, fun i hi => ?_⟩
      cases i with
      | zero => exact hfront
      | succ i => exact hbefore i (by omega)

/-- What is found stays where it is when more follows. -/
theorem find_mono {n : ℕ} (h : find sub x = some n) (hxy : x <+: y) : find sub y = some n := by
  induction x generalizing y n with
  | nil =>
    unfold find at h
    split_ifs at h with hsub
    cases h
    rw [hsub]
    exact find_at List.nil_prefix
  | cons a x ih =>
    obtain ⟨t, rfl⟩ := hxy
    by_cases hfront : sub <+: a :: x
    · rw [find_at hfront] at h
      cases h
      exact find_at (hfront.trans (List.prefix_append _ _))
    · rw [find_cons hfront, Option.map_eq_some_iff] at h
      obtain ⟨m, hm, rfl⟩ := h
      by_cases hfront' : sub <+: a :: (x ++ t)
      · -- It would end beyond `x`, but it is found in `x`.
        obtain ⟨hat, -, -⟩ := find_eq_some hm
        have hlen : sub.length ≤ (a :: x).length := by
          have := hat.length_le
          rw [List.length_drop] at this
          simp only [List.length_cons]
          omega
        exact absurd (List.prefix_of_prefix_length_le hfront' (List.prefix_append (a :: x) t) hlen) hfront
      · rw [List.cons_append, find_cons hfront', ih hm (List.prefix_append x t)]
        rfl

/-- The first place of one element. -/
theorem find_singleton {a : α} : find [a] x = if a ∈ x then some (x.takeWhile (· ≠ a)).length else none := by
  induction x with
  | nil => rfl
  | cons c x ih =>
    by_cases hc : c = a
    · rw [find_at (by simp [hc]), if_pos (by simp [hc]), List.takeWhile_cons_of_neg (by simp [hc])]
      rfl
    · rw [find_cons (by simpa using Ne.symm hc), ih, List.takeWhile_cons_of_pos (by simpa using hc)]
      by_cases ha : a ∈ x
      · simp [ha]
      · simp [ha, Ne.symm hc]

/-! ### Separators -/

omit [DecidableEq α] in
/-- A beginning of two lists in a row ends in the first or in the second. -/
theorem prefix_append_cases {p : List α} (h : p <+: z ++ y) :
    p <+: z ∨ ∃ s, s ≠ [] ∧ s <+: y ∧ p = z ++ s := by
  rcases List.prefix_or_prefix_of_prefix h (List.prefix_append z y) with hz | ⟨s, rfl⟩
  · exact .inl hz
  · by_cases hs : s = []
    · left
      rw [hs, List.append_nil]
    · exact .inr ⟨s, hs, (List.prefix_append_right_inj z).mp h, rfl⟩

omit [DecidableEq α] in
theorem prefix_sep (hb : b ∉ sub) (h : sub <+: z ++ b :: y) : sub <+: z := by
  rcases prefix_append_cases h with hz | ⟨s, hs, hsy, rfl⟩
  · exact hz
  · obtain ⟨c, s, rfl⟩ := List.exists_cons_of_ne_nil hs
    obtain rfl : c = b := (List.cons_prefix_cons.mp hsy).1
    exact absurd (by simp) hb

/-- What stands before a separator is searched alone. -/
theorem find_sep (hx : ¬sub <:+: x) (hb : b ∉ sub) :
    find sub (x ++ b :: y) = (find sub y).map (· + (x.length + 1)) := by
  have hskip : ∀ z, z ≠ [] → z <:+ x ++ [b] → ¬sub <+: z ++ y := by
    rintro z hz ⟨t, ht⟩ hsub
    -- The separator ends `z`.
    obtain ⟨z', rfl⟩ : ∃ z', z = z' ++ [b] := by
      obtain ⟨z', c, rfl⟩ := List.eq_nil_or_concat z |>.resolve_left hz
      rw [List.concat_eq_append, ← List.append_assoc] at ht
      obtain ⟨-, hc⟩ := List.append_inj' ht rfl
      exact ⟨z', by rw [List.concat_eq_append, hc]⟩
    rw [← List.append_assoc] at ht
    have hsuffix : z' <:+ x := ⟨t, (List.append_inj' ht rfl).1⟩
    rw [List.append_assoc] at hsub
    exact hx ((prefix_sep hb hsub).isInfix.trans hsuffix.isInfix)
  have h := find_skip hskip
  rw [List.append_assoc, List.length_append] at h
  exact h

theorem infix_sep (hb : b ∉ sub) (hx : ¬sub <:+: x) (hy : ¬sub <:+: y) : ¬sub <:+: x ++ b :: y := by
  rw [← find_eq_none, find_sep hx hb, find_eq_none.mpr hy]
  rfl

omit [DecidableEq α] in
/-- A text with an element that is not there is not there. -/
theorem not_infix_of_mem (hb : b ∈ sub) (hx : b ∉ x) : ¬sub <:+: x :=
  fun h => hx (h.subset hb)

/-! ### Borders -/

/-- No beginning of the text is its end, save the empty one and the text itself. -/
def Unbordered (sub : List α) : Prop := ∀ n, n < sub.length → 0 < n → sub.drop n ≠ sub.take (sub.length - n)

instance (sub : List α) : Decidable (Unbordered sub) :=
  inferInstanceAs (Decidable (∀ n, n < sub.length → 0 < n → _))

omit [DecidableEq α] in
/-- Before a text without borders nothing of it starts. -/
theorem Unbordered.not_begins (h : Unbordered sub) (hz : z ≠ []) (hin : ¬sub <:+: z) :
    ¬sub <+: z ++ (sub ++ y) := by
  intro hsub
  rcases prefix_append_cases hsub with hpre | ⟨s, hs, hsy, heq⟩
  · exact hin hpre.isInfix
  · -- The rest of `sub` would begin `sub` again.
    have hlen : sub.length = z.length + s.length := by
      rw [← List.length_append, ← heq]
    have hzpos : 0 < z.length := List.length_pos_iff.mpr hz
    have hspos : 0 < s.length := List.length_pos_iff.mpr hs
    have hdrop : sub.drop z.length = s := by
      conv_lhs => rw [heq]
      exact List.drop_left
    have hbegin : s <+: sub :=
      List.prefix_of_prefix_length_le hsy (List.prefix_append sub y) (by omega)
    refine h z.length (by omega) hzpos ?_
    rw [hdrop, show sub.length - z.length = s.length by omega]
    exact List.prefix_iff_eq_take.mp hbegin

theorem find_self (h : Unbordered sub) (hx : ¬sub <:+: x) : find sub (x ++ (sub ++ y)) = some x.length := by
  rw [find_skip fun z hz hsuffix => h.not_begins hz fun hin => hx (hin.trans hsuffix.isInfix),
    find_at (List.prefix_append sub y)]
  simp

/-- A proper beginning of a text without borders adds no place of it. -/
theorem Unbordered.not_infix (h : Unbordered sub) (hx : ¬sub <:+: x) {s : List α} (hs : s <+: sub)
    (hne : s ≠ sub) : ¬sub <:+: x ++ s := by
  intro hin
  obtain ⟨t, ht⟩ := hs
  have hfound := find_self (y := []) h hx
  rw [List.append_nil] at hfound
  obtain ⟨-, -, hbefore⟩ := find_eq_some hfound
  obtain ⟨u, v, huv⟩ := hin
  have htpos : 0 < t.length := by
    rw [List.length_pos_iff]
    rintro rfl
    exact hne (by rw [← ht, List.append_nil])
  have hlen : u.length + sub.length + v.length = x.length + s.length := by
    simpa [Nat.add_assoc] using congrArg List.length huv
  have hlen' : s.length + t.length = sub.length := by
    rw [← List.length_append, ht]
  refine hbefore u.length (by omega) ?_
  have hdrop : (x ++ sub).drop u.length = sub ++ (v ++ t) := by
    rw [← ht, ← List.append_assoc, ← huv, List.append_assoc, List.append_assoc, List.drop_left]
    simp [ht]
  rw [hdrop]
  exact List.prefix_append _ _

/-- No end of `sub` begins `m`. -/
def Apart (sub m : List α) : Prop :=
  ∀ n, n ≤ m.length → 0 < n → n < sub.length → sub.drop (sub.length - n) ≠ m.take n

instance (sub m : List α) : Decidable (Apart sub m) :=
  inferInstanceAs (Decidable (∀ n, n ≤ m.length → 0 < n → n < sub.length → _))

omit [DecidableEq α] in
/-- Where no end of `sub` begins `m`, a beginning of `m` adds no place of `sub`. -/
theorem Apart.not_infix {m s : List α} (h : Apart sub m) (hm : ¬sub <:+: m) (hx : ¬sub <:+: x)
    (hs : s <+: m) : ¬sub <:+: x ++ s := by
  rintro ⟨u, v, huv⟩
  rw [List.append_assoc] at huv
  rcases List.append_eq_append_iff.mp huv with ⟨z, hu, hz⟩ | ⟨z, hu, hz⟩
  · -- It starts in `x`, and ends in `s`.
    rcases List.append_eq_append_iff.mp hz.symm with ⟨z', rfl, hz'⟩ | ⟨z', rfl, -⟩
    · by_cases hnil : z' = []
      · subst hnil
        exact hx ⟨u, [], by rw [hu, List.append_nil, List.append_nil]⟩
      · by_cases hz0 : z = []
        · subst hz0
          refine hm (List.IsInfix.trans ?_ hs.isInfix)
          rw [hz', List.nil_append]
          exact List.infix_append_left
        · have hpos := List.length_pos_iff.mpr hnil
          have hpos' := List.length_pos_iff.mpr hz0
          have hbegin : z' <+: m := by
            refine List.IsPrefix.trans ?_ hs
            rw [hz']
            exact List.prefix_append _ _
          refine h z'.length hbegin.length_le hpos (by rw [List.length_append]; omega) ?_
          rw [List.length_append, Nat.add_sub_cancel, List.drop_left]
          exact List.prefix_iff_eq_take.mp hbegin
    · exact hx ⟨u, z', by rw [hu, List.append_assoc]⟩
  · refine hm (List.IsInfix.trans ⟨z, v, ?_⟩ hs.isInfix)
    rw [hz, List.append_assoc]

/-! ### Pieces -/

/-- Pieces, each after a `sub`. -/
def glue (sub : List α) (rs : List (List α)) : List α := rs.flatMap (sub ++ ·)

omit [DecidableEq α] in
@[simp] theorem glue_nil : glue sub [] = [] := rfl

omit [DecidableEq α] in
@[simp] theorem glue_cons (r : List α) (rs : List (List α)) : glue sub (r :: rs) = sub ++ (r ++ glue sub rs) := by
  simp [glue]

omit [DecidableEq α] in
theorem glue_append (rs rs' : List (List α)) : glue sub (rs ++ rs') = glue sub rs ++ glue sub rs' := by
  simp [glue]

/-- The pieces of a list: what stands before the first `sub`, and what stands after each. -/
def splitFuel (sub : List α) : ℕ → List α → List α × List (List α)
  | 0, x => (x, [])
  | n + 1, x =>
    match find sub x with
    | none => (x, [])
    | some i => (x.take i, (splitFuel sub n (x.drop (i + sub.length))).1 ::
        (splitFuel sub n (x.drop (i + sub.length))).2)

def split (sub x : List α) : List α × List (List α) := splitFuel sub x.length x

/-- No piece has a `sub` in it. -/
def Clean (sub : List α) (rs : List (List α)) : Prop := ∀ r ∈ rs, ¬sub <:+: r

theorem splitFuel_spec (hsub : sub ≠ []) {n : ℕ} (hn : x.length ≤ n) :
    x = (splitFuel sub n x).1 ++ glue sub (splitFuel sub n x).2 ∧
      ¬sub <:+: (splitFuel sub n x).1 ∧ Clean sub (splitFuel sub n x).2 := by
  induction n generalizing x with
  | zero =>
    have hx : x = [] := List.length_eq_zero_iff.mp (by omega)
    subst hx
    exact ⟨by simp [splitFuel], by simpa [splitFuel] using hsub, by simp [splitFuel, Clean]⟩
  | succ n ih =>
    unfold splitFuel
    split
    · rename_i hfind
      exact ⟨by simp, find_eq_none.mp hfind, by simp [Clean]⟩
    · rename_i i hfind
      obtain ⟨hat, hi, hbefore⟩ := find_eq_some hfind
      have hpos : 0 < sub.length := List.length_pos_iff.mpr hsub
      have hlen : (x.drop (i + sub.length)).length ≤ n := by
        rw [List.length_drop]
        have := hat.length_le
        rw [List.length_drop] at this
        omega
      obtain ⟨hjoin, hclean, hrest⟩ := ih hlen
      refine ⟨?_, ?_, ?_⟩
      · dsimp only
        rw [glue_cons, ← hjoin]
        obtain ⟨t, ht⟩ := hat
        have ht' : x.drop (i + sub.length) = t := by
          rw [← List.drop_drop, ← ht, List.drop_left]
        rw [ht', ht, List.take_append_drop]
      · rintro ⟨u, v, huv⟩
        dsimp only at huv
        -- A place in front of the first one.
        have hulen : u.length + sub.length + v.length = i := by
          have := congrArg List.length huv
          simp only [List.length_append, List.length_take] at this
          omega
        refine hbefore u.length (by omega) ?_
        rw [← List.take_append_drop i x, ← huv, List.append_assoc, List.append_assoc, List.drop_left]
        exact List.prefix_append _ _
      · intro r hr
        rcases List.mem_cons.mp hr with rfl | hr
        · exact hclean
        · exact hrest r hr

theorem split_spec (hsub : sub ≠ []) (x : List α) : x = (split sub x).1 ++ glue sub (split sub x).2 ∧
    ¬sub <:+: (split sub x).1 ∧ Clean sub (split sub x).2 :=
  splitFuel_spec hsub le_rfl

/-- A beginning of joined pieces: it ends before the first `sub` is complete, or within a piece or
the `sub` after it. -/
theorem prefix_glue (h : Unbordered sub) {p : List α} {rs : List (List α)} (hx : ¬sub <:+: x)
    (hrs : Clean sub rs) (hp : p <+: x ++ glue sub rs) :
    (¬sub <:+: p ∧ (p <+: x ∨ rs ≠ [] ∧ ∃ s, s <+: sub ∧ p = x ++ s)) ∨
    ∃ before r after r', rs = before ++ r :: after ∧ p = x ++ glue sub (before ++ [r']) ∧ ¬sub <:+: r' ∧
      (r' <+: r ∨ after ≠ [] ∧ ∃ s, s <+: sub ∧ r' = r ++ s) := by
  induction rs generalizing x p with
  | nil =>
    rw [glue_nil, List.append_nil] at hp
    exact .inl ⟨fun hin => hx (hin.trans hp.isInfix), .inl hp⟩
  | cons r rs ih =>
    rw [glue_cons] at hp
    rcases prefix_append_cases hp with hpx | ⟨s, -, hs, rfl⟩
    · exact .inl ⟨fun hin => hx (hin.trans hpx.isInfix), .inl hpx⟩
    · rcases prefix_append_cases hs with hssub | ⟨q, -, hq, rfl⟩
      · by_cases hne : s = sub
        · -- The first `sub` is just complete.
          right
          refine ⟨[], r, rs, [], rfl, ?_, ?_, .inl List.nil_prefix⟩
          · simp [hne]
          · rw [List.infix_nil]
            rintro rfl
            exact hx List.nil_infix
        · exact .inl ⟨h.not_infix hx hssub hne, .inr ⟨by simp, s, hssub, rfl⟩⟩
      · right
        rcases ih (hrs r List.mem_cons_self) (fun r' hr' => hrs r' (List.mem_cons_of_mem _ hr')) hq with
          ⟨hq', hwhere⟩ | ⟨before, r₁, after, r', rfl, rfl, hr', hwhere⟩
        · exact ⟨[], r, rs, q, rfl, by simp, hq', hwhere⟩
        · exact ⟨r :: before, r₁, after, r', rfl, by simp, hr', hwhere⟩

end Search
