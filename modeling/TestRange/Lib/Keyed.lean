/-
Finite collections of items under a key, in the order of their keys.

A collection holds at most one item for each key and is gone through in key order, as
the files of a directory are when their names are sorted.

* `Keyed.put`, `Keyed.erase`, `Keyed.find` — replace or add, drop, and look up an item;
* `Keyed.first` — the first item with a property, in key order;
* `Keyed.first_eq_some` — it is the one with the least key;
* `Keyed.select_eq_singleton` — when there is exactly one item with a property.
-/
import Mathlib.Order.Basic
import Mathlib.Order.Lattice
import Mathlib.Data.List.Nodup

/-- Items in the strict order of their keys. -/
structure Keyed {α κ : Type} [LinearOrder κ] (key : α → κ) where
  items : List α
  sorted : items.Pairwise fun a b => key a < key b

namespace Keyed

variable {α κ : Type} [LinearOrder κ] {key : α → κ} {s : Keyed key} {a b : α} {p : α → Bool}

instance : Membership α (Keyed key) := ⟨fun s a => a ∈ s.items⟩

theorem mem_def : a ∈ s ↔ a ∈ s.items := Iff.rfl

/-- No items. -/
def empty : Keyed key := ⟨[], .nil⟩

@[simp] theorem not_mem_empty : a ∉ (empty : Keyed key) := by
  simp [mem_def, empty]

/-- An item is known by its key. -/
theorem eq_of_key_eq (ha : a ∈ s) (hb : b ∈ s) (h : key a = key b) : a = b := by
  have hdistinct : (s.items.map key).Nodup := List.pairwise_map.mpr (s.sorted.imp fun h => h.ne)
  exact List.inj_on_of_nodup_map hdistinct ha hb h

/-! ### Changes -/

/-- Put an item in its place, over the one with its key. -/
def insertItem (key : α → κ) (a : α) : List α → List α
  | [] => [a]
  | b :: bs =>
    if key a < key b then a :: b :: bs
    else if key a = key b then a :: bs
    else b :: insertItem key a bs

theorem mem_insertItem {bs : List α} (h : bs.Pairwise fun a b => key a < key b) :
    b ∈ insertItem key a bs ↔ b = a ∨ (b ∈ bs ∧ key b ≠ key a) := by
  induction bs with
  | nil => simp [insertItem]
  | cons c cs ih =>
    obtain ⟨hc, hcs⟩ := List.pairwise_cons.mp h
    unfold insertItem
    split_ifs with hlt heq
    · -- Everything from here on has a greater key.
      have hne : ∀ d ∈ c :: cs, key d ≠ key a := by
        intro d hd
        rcases List.mem_cons.mp hd with rfl | hd
        · exact hlt.ne'
        · exact (hlt.trans (hc d hd)).ne'
      rw [List.mem_cons]
      exact or_congr_right ⟨fun hb => ⟨hb, hne b hb⟩, fun hb => hb.1⟩
    · have hne : ∀ d ∈ cs, key d ≠ key a := by
        intro d hd
        rw [heq]
        exact (hc d hd).ne'
      rw [List.mem_cons, List.mem_cons]
      refine or_congr_right ⟨fun hb => ⟨.inr hb, hne b hb⟩, ?_⟩
      rintro ⟨rfl | hb, hkey⟩
      · exact absurd heq.symm hkey
      · exact hb
    · rw [List.mem_cons, List.mem_cons, ih hcs]
      constructor
      · rintro (rfl | rfl | ⟨hb, hkey⟩)
        · exact .inr ⟨.inl rfl, fun h => heq h.symm⟩
        · exact .inl rfl
        · exact .inr ⟨.inr hb, hkey⟩
      · rintro (rfl | ⟨rfl | hb, hkey⟩)
        · exact .inr (.inl rfl)
        · exact .inl rfl
        · exact .inr (.inr ⟨hb, hkey⟩)

theorem sorted_insertItem {bs : List α} (h : bs.Pairwise fun a b => key a < key b) :
    (insertItem key a bs).Pairwise fun a b => key a < key b := by
  induction bs with
  | nil => simp [insertItem]
  | cons c cs ih =>
    obtain ⟨hc, hcs⟩ := List.pairwise_cons.mp h
    unfold insertItem
    split_ifs with hlt heq
    · refine List.pairwise_cons.mpr ⟨?_, h⟩
      intro d hd
      rcases List.mem_cons.mp hd with rfl | hd
      · exact hlt
      · exact hlt.trans (hc d hd)
    · refine List.pairwise_cons.mpr ⟨?_, hcs⟩
      intro d hd
      rw [heq]
      exact hc d hd
    · refine List.pairwise_cons.mpr ⟨?_, ih hcs⟩
      intro d hd
      rcases (mem_insertItem hcs).mp hd with rfl | ⟨hd, -⟩
      · exact lt_of_le_of_ne (not_lt.mp hlt) (Ne.symm heq)
      · exact hc d hd

/-- Add an item, or replace the one with its key. -/
def put (s : Keyed key) (a : α) : Keyed key := ⟨insertItem key a s.items, sorted_insertItem s.sorted⟩

/-- Drop the item with a key. -/
def erase (s : Keyed key) (k : κ) : Keyed key :=
  ⟨s.items.filter fun a => key a ≠ k, s.sorted.filter _⟩

@[simp] theorem mem_put : b ∈ s.put a ↔ b = a ∨ (b ∈ s ∧ key b ≠ key a) :=
  mem_insertItem s.sorted

@[simp] theorem mem_erase {k : κ} : b ∈ s.erase k ↔ b ∈ s ∧ key b ≠ k := by
  simp [mem_def, erase]

/-- Putting what is there changes nothing. -/
theorem put_of_mem (ha : a ∈ s) : s.put a = s := by
  obtain ⟨items, sorted⟩ := s
  have hlist : insertItem key a items = items := by
    induction items with
    | nil => cases ha
    | cons c cs ih =>
      obtain ⟨hc, hcs⟩ := List.pairwise_cons.mp sorted
      rcases List.mem_cons.mp ha with rfl | ha
      · simp [insertItem]
      · have hlt := hc a ha
        simp [insertItem, hlt.not_gt, hlt.ne', ih hcs ha]
  simp only [put, hlist]

/-! ### Lookups -/

/-- The item with a key. -/
def find (s : Keyed key) (k : κ) : Option α := s.items.find? fun a => key a = k

theorem find_eq_some {k : κ} : s.find k = some a ↔ a ∈ s ∧ key a = k := by
  constructor
  · intro h
    exact ⟨List.mem_of_find?_eq_some h, by simpa using List.find?_some h⟩
  · rintro ⟨ha, rfl⟩
    cases h : s.find (key a) with
    | none => exact absurd (by simp) (List.find?_eq_none.mp h a ha)
    | some b =>
      have hb : key b = key a := by simpa using List.find?_some h
      rw [eq_of_key_eq (List.mem_of_find?_eq_some h) ha hb]

theorem find_eq_none {k : κ} : s.find k = none ↔ ∀ a ∈ s, key a ≠ k := by
  simp only [find, List.find?_eq_none, decide_eq_true_eq]
  rfl

theorem find_put_of_ne {k : κ} (h : k ≠ key a) : (s.put a).find k = s.find k := by
  ext b
  rw [find_eq_some, find_eq_some, mem_put]
  constructor
  · rintro ⟨rfl | ⟨hb, -⟩, hkey⟩
    · exact absurd hkey.symm h
    · exact ⟨hb, hkey⟩
  · rintro ⟨hb, hkey⟩
    exact ⟨.inr ⟨hb, fun heq => h (hkey ▸ heq)⟩, hkey⟩

theorem find_erase_self {k : κ} : (s.erase k).find k = none :=
  find_eq_none.mpr fun _ ha => (mem_erase.mp ha).2

theorem find_erase_of_ne {k k' : κ} (h : k ≠ k') : (s.erase k').find k = s.find k := by
  ext b
  rw [find_eq_some, find_eq_some, mem_erase]
  constructor
  · rintro ⟨⟨hb, -⟩, hkey⟩
    exact ⟨hb, hkey⟩
  · rintro ⟨hb, hkey⟩
    exact ⟨⟨hb, hkey ▸ h⟩, hkey⟩

/-- The first item with a property. -/
def first (s : Keyed key) (p : α → Bool) : Option α := s.items.find? p

/-- The first item with a property is the one with the least key. -/
theorem first_eq_some : s.first p = some a ↔
    a ∈ s ∧ p a = true ∧ ∀ b ∈ s, p b = true → key a ≤ key b := by
  obtain ⟨items, sorted⟩ := s
  simp only [first, mem_def]
  induction items with
  | nil => simp
  | cons c cs ih =>
    obtain ⟨hc, hcs⟩ := List.pairwise_cons.mp sorted
    by_cases hp : p c = true
    · rw [List.find?_cons_of_pos hp]
      constructor
      · rintro ⟨⟩
        refine ⟨List.mem_cons_self, hp, fun b hb _ => ?_⟩
        rcases List.mem_cons.mp hb with rfl | hb
        · exact le_refl _
        · exact (hc b hb).le
      · rintro ⟨ha, hpa, hleast⟩
        rcases List.mem_cons.mp ha with rfl | ha
        · rfl
        · exact absurd (hc a ha) (not_lt.mpr (hleast c List.mem_cons_self hp))
    · rw [List.find?_cons_of_neg hp, ih hcs]
      constructor
      · rintro ⟨ha, hpa, hleast⟩
        refine ⟨List.mem_cons_of_mem c ha, hpa, fun b hb hpb => ?_⟩
        rcases List.mem_cons.mp hb with rfl | hb
        · exact absurd hpb hp
        · exact hleast b hb hpb
      · rintro ⟨ha, hpa, hleast⟩
        rcases List.mem_cons.mp ha with rfl | ha
        · exact absurd hpa hp
        · exact ⟨ha, hpa, fun b hb => hleast b (List.mem_cons_of_mem c hb)⟩

theorem first_eq_none : s.first p = none ↔ ∀ a ∈ s, ¬ p a = true := List.find?_eq_none

/-- The items with a property, in key order. -/
def select (s : Keyed key) (p : α → Bool) : List α := s.items.filter p

@[simp] theorem mem_select : a ∈ s.select p ↔ a ∈ s ∧ p a = true := List.mem_filter

theorem nodup_items (s : Keyed key) : s.items.Nodup :=
  s.sorted.imp fun h heq => h.ne (congrArg key heq)

/-- There is exactly one item with a property. -/
theorem select_eq_singleton : s.select p = [a] ↔
    a ∈ s ∧ p a = true ∧ ∀ b ∈ s, p b = true → b = a := by
  constructor
  · intro h
    have ha : a ∈ s.select p := by simp [h]
    obtain ⟨hmem, hp⟩ := mem_select.mp ha
    refine ⟨hmem, hp, fun b hb hpb => ?_⟩
    have hb' : b ∈ s.select p := mem_select.mpr ⟨hb, hpb⟩
    simpa [h] using hb'
  · rintro ⟨hmem, hp, honly⟩
    have hnodup : (s.select p).Nodup := s.nodup_items.filter p
    have ha : a ∈ s.select p := mem_select.mpr ⟨hmem, hp⟩
    obtain ⟨l₁, l₂, hl⟩ := List.append_of_mem ha
    have hall : ∀ b ∈ s.select p, b = a := fun b hb =>
      honly b (mem_select.mp hb).1 (mem_select.mp hb).2
    -- Nothing stands before it or after it, for that would be `a` again.
    rw [hl] at hnodup hall
    have hsplit := List.nodup_append.mp hnodup
    have h₁ : l₁ = [] := List.eq_nil_iff_forall_not_mem.mpr fun b hb =>
      hsplit.2.2 b hb a List.mem_cons_self (hall b (by simp [hb]))
    have h₂ : l₂ = [] := List.eq_nil_iff_forall_not_mem.mpr fun b hb => by
      have hba := hall b (by simp [hb])
      subst hba
      exact (List.nodup_cons.mp hsplit.2.1).1 hb
    rw [hl, h₁, h₂]
    rfl

theorem select_eq_nil : s.select p = [] ↔ ∀ a ∈ s, ¬ p a = true := List.filter_eq_nil_iff

end Keyed
