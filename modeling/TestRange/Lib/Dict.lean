/-
Dictionaries with string keys, and JSON texts with sorted keys.

A Python `dict` compares without regard to order, so a dictionary here is its
pairs in strictly increasing order of keys, and equality of dictionaries is
equality.

* `Json.loads_dumps` — what `json.dumps(v, indent=2, sort_keys=True)` writes, plus
  a line feed, is read back as `v` with its keys sorted;
* `Json.get?_sortKeys` — sorting keys does not change what a lookup finds;
* `Dict.sortKeys_toJson`, `Dict.ofEntries_entries` — a dictionary survives both.
-/
import Mathlib.Data.String.Basic
import Mathlib.Data.List.Sort
import TestRange.Lib.Json

namespace Json

/-- The order of `sort_keys=True`; strings compare by code points. -/
def keyLe (a b : String × Json) : Prop := a.1 ≤ b.1

instance : DecidableRel keyLe := fun a b => inferInstanceAs (Decidable (a.1 ≤ b.1))

mutual

/-- Every object of the value with its members in the order of their keys. -/
def sortKeys : Json → Json
  | .null => .null
  | .bool b => .bool b
  | .int n => .int n
  | .float text => .float text
  | .str s => .str s
  | .arr xs => .arr (sortKeysItems xs)
  | .obj kvs => .obj ((sortKeysMembers kvs).insertionSort keyLe)

def sortKeysItems : List Json → List Json
  | [] => []
  | x :: xs => x.sortKeys :: sortKeysItems xs

def sortKeysMembers : List (String × Json) → List (String × Json)
  | [] => []
  | (k, v) :: kvs => (k, v.sortKeys) :: sortKeysMembers kvs

end

/-- `json.dumps(v, indent=2, sort_keys=True) + "\n"`. -/
def dumps (v : Json) : List Char := render 0 v.sortKeys ++ ['\n']

/-- `data.get(key)` on an object. -/
def get? (key : String) : Json → Option Json
  | .obj kvs => kvs.lookup key
  | _ => none

theorem sortKeysItems_eq_map (xs : List Json) : sortKeysItems xs = xs.map sortKeys := by
  induction xs with
  | nil => rfl
  | cons x xs ih => rw [sortKeysItems, ih, List.map_cons]

theorem sortKeysMembers_eq_map (kvs : List (String × Json)) :
    sortKeysMembers kvs = kvs.map fun kv => (kv.1, kv.2.sortKeys) := by
  induction kvs with
  | nil => rfl
  | cons kv kvs ih => rw [sortKeysMembers, ih, List.map_cons]

theorem map_fst_sortKeysMembers (kvs : List (String × Json)) :
    (sortKeysMembers kvs).map Prod.fst = kvs.map Prod.fst := by
  simp [sortKeysMembers_eq_map]

mutual

theorem Plain.sortKeys : ∀ {v : Json}, v.Plain → v.sortKeys.Plain
  | .null, h => h
  | .bool _, h => h
  | .int _, h => h
  | .float _, h => h
  | .str _, h => h
  | .arr xs, h => by
    rw [Plain] at h
    rw [Json.sortKeys, Plain]
    exact plainItems_sortKeys h
  | .obj kvs, h => by
    rw [Plain] at h
    have hperm := List.perm_insertionSort keyLe (sortKeysMembers kvs)
    rw [Json.sortKeys, Plain]
    constructor
    · rw [plainMembers_iff]
      exact fun kv hkv => plainMembers_iff.mp (plainMembers_sortKeys h.1) kv (hperm.mem_iff.mp hkv)
    · rw [(hperm.map Prod.fst).nodup_iff, map_fst_sortKeysMembers]
      exact h.2

theorem plainItems_sortKeys : ∀ {xs : List Json}, PlainItems xs → PlainItems (sortKeysItems xs)
  | [], h => h
  | x :: xs, h => by
    rw [PlainItems] at h
    rw [sortKeysItems, PlainItems]
    exact ⟨h.1.sortKeys, plainItems_sortKeys h.2⟩

theorem plainMembers_sortKeys :
    ∀ {kvs : List (String × Json)}, PlainMembers kvs → PlainMembers (sortKeysMembers kvs)
  | [], h => h
  | (k, v) :: kvs, h => by
    rw [PlainMembers] at h
    rw [sortKeysMembers, PlainMembers]
    exact ⟨h.1.sortKeys, plainMembers_sortKeys h.2⟩

end

/-- **A written value is read back with its keys sorted.** -/
theorem loads_dumps {v : Json} (h : v.Plain) : loads (dumps v) = some v.sortKeys :=
  loads_render h.sortKeys

/-- With distinct keys a lookup finds exactly the pairs of the list. -/
theorem lookup_eq_some_iff_mem {β : Type} {kvs : List (String × β)}
    (h : (kvs.map Prod.fst).Nodup) {k : String} {v : β} :
    kvs.lookup k = some v ↔ (k, v) ∈ kvs := by
  induction kvs with
  | nil => simp
  | cons kv kvs ih =>
    obtain ⟨k', v'⟩ := kv
    rw [List.map_cons, List.nodup_cons] at h
    rw [List.lookup_cons]
    by_cases hk : k = k'
    · subst hk
      have hnot : (k, v) ∉ kvs := fun hm =>
        h.1 (List.mem_map.mpr ⟨(k, v), hm, rfl⟩)
      simp [hnot, eq_comm]
    · simp [beq_false_of_ne hk, ih h.2, hk]

theorem lookup_perm {β : Type} {kvs kvs' : List (String × β)} (hp : kvs.Perm kvs')
    (h : (kvs.map Prod.fst).Nodup) (k : String) : kvs.lookup k = kvs'.lookup k := by
  have h' : (kvs'.map Prod.fst).Nodup := (hp.map Prod.fst).nodup_iff.mp h
  ext v
  rw [lookup_eq_some_iff_mem h, lookup_eq_some_iff_mem h', hp.mem_iff]

/-- **Sorting keys does not change what a lookup finds**, up to sorting below it. -/
theorem get?_sortKeys {v : Json} (h : v.Plain) (k : String) :
    v.sortKeys.get? k = (v.get? k).map sortKeys := by
  cases v with
  | obj kvs =>
    rw [Plain] at h
    have hnd : ((sortKeysMembers kvs).map Prod.fst).Nodup := by
      rw [map_fst_sortKeysMembers]; exact h.2
    have hp := List.perm_insertionSort keyLe (sortKeysMembers kvs)
    rw [sortKeys, get?, get?, ← lookup_perm hp.symm hnd, sortKeysMembers_eq_map]
    clear hp hnd h
    induction kvs with
    | nil => rfl
    | cons kv kvs ih =>
      obtain ⟨k', v'⟩ := kv
      simp only [List.map_cons, List.lookup_cons]
      cases k == k'
      · exact ih
      · rfl
  | _ => rfl

theorem pairwise_insertionSort_keyLe (kvs : List (String × Json)) :
    (kvs.insertionSort keyLe).Pairwise keyLe := by
  have : Std.Total keyLe := ⟨fun a b => le_total a.1 b.1⟩
  have : IsTrans _ keyLe := ⟨fun _ _ _ hab hbc => le_trans hab hbc⟩
  exact List.pairwise_insertionSort keyLe kvs

mutual

/-- Sorting twice is sorting once. -/
theorem sortKeys_sortKeys : ∀ v : Json, v.sortKeys.sortKeys = v.sortKeys
  | .null => rfl
  | .bool _ => rfl
  | .int _ => rfl
  | .float _ => rfl
  | .str _ => rfl
  | .arr xs => by
    rw [sortKeys, sortKeys, sortKeysItems_eq_map, sortKeysItems_eq_map, List.map_map]
    exact congrArg Json.arr (List.map_congr_left (sortKeys_sortKeys_items xs))
  | .obj kvs => by
    have hmem : ∀ kv ∈ (sortKeysMembers kvs).insertionSort keyLe, kv.2.sortKeys = kv.2 := by
      intro kv hkv
      rw [(List.perm_insertionSort keyLe _).mem_iff, sortKeysMembers_eq_map, List.mem_map] at hkv
      obtain ⟨kv', hkv', rfl⟩ := hkv
      exact sortKeys_sortKeys_members kvs kv' hkv'
    have hid : sortKeysMembers ((sortKeysMembers kvs).insertionSort keyLe) =
        (sortKeysMembers kvs).insertionSort keyLe := by
      rw [sortKeysMembers_eq_map ((sortKeysMembers kvs).insertionSort keyLe)]
      exact (List.map_congr_left fun kv hkv => by rw [hmem kv hkv]).trans (List.map_id' _)
    rw [sortKeys, sortKeys, hid, (pairwise_insertionSort_keyLe _).insertionSort_eq]

theorem sortKeys_sortKeys_items : ∀ xs : List Json, ∀ x ∈ xs, x.sortKeys.sortKeys = x.sortKeys
  | x :: xs, y, hy => by
    rcases List.mem_cons.mp hy with hxy | hy
    · rw [hxy]
      exact sortKeys_sortKeys x
    · exact sortKeys_sortKeys_items xs y hy

theorem sortKeys_sortKeys_members :
    ∀ kvs : List (String × Json), ∀ kv ∈ kvs, kv.2.sortKeys.sortKeys = kv.2.sortKeys
  | (k, v) :: kvs, kv, hkv => by
    rcases List.mem_cons.mp hkv with hxy | hkv
    · rw [hxy]
      exact sortKeys_sortKeys v
    · exact sortKeys_sortKeys_members kvs kv hkv

end

end Json

/-- A dictionary of JSON values: its pairs by strictly increasing keys, and sorted
below as well. -/
structure Dict where
  entries : List (String × Json)
  sorted : (entries.map Prod.fst).Pairwise (· < ·)
  sorted_values : ∀ kv ∈ entries, kv.2.sortKeys = kv.2

namespace Dict

@[ext] theorem ext {d d' : Dict} (h : d.entries = d'.entries) : d = d' := by
  cases d; cases d'; cases h; rfl

theorem nodup_keys (d : Dict) : (d.entries.map Prod.fst).Nodup :=
  d.sorted.imp fun h => ne_of_lt h

def empty : Dict := ⟨[], .nil, by simp⟩

/-- `d.get(key)`. -/
def get? (d : Dict) (key : String) : Option Json := d.entries.lookup key

/-- Put one pair in its place, in the place of any with the same key. -/
def insertEntry (k : String) (v : Json) : List (String × Json) → List (String × Json)
  | [] => [(k, v)]
  | (k', v') :: rest =>
    if k < k' then (k, v) :: (k', v') :: rest
    else if k = k' then (k, v) :: rest
    else (k', v') :: insertEntry k v rest

theorem mem_insertEntry {k : String} {v : Json} {kvs : List (String × Json)} {kv : String × Json}
    (h : kv ∈ insertEntry k v kvs) : kv = (k, v) ∨ kv ∈ kvs := by
  induction kvs with
  | nil => simpa [insertEntry] using h
  | cons kv' kvs ih =>
    obtain ⟨k', v'⟩ := kv'
    rw [insertEntry] at h
    split_ifs at h with h₁ h₂
    · simpa using h
    · rcases List.mem_cons.mp h with h | h
      · exact .inl h
      · exact .inr (List.mem_cons_of_mem _ h)
    · rcases List.mem_cons.mp h with h | h
      · exact .inr (h ▸ List.mem_cons_self)
      · exact (ih h).imp id (List.mem_cons_of_mem _)

theorem sorted_insertEntry {k : String} {v : Json} {kvs : List (String × Json)}
    (h : (kvs.map Prod.fst).Pairwise (· < ·)) :
    ((insertEntry k v kvs).map Prod.fst).Pairwise (· < ·) := by
  induction kvs with
  | nil => simp [insertEntry]
  | cons kv' kvs ih =>
    obtain ⟨k', v'⟩ := kv'
    rw [List.map_cons, List.pairwise_cons] at h
    rw [insertEntry]
    split_ifs with h₁ h₂
    · refine List.pairwise_cons.mpr ⟨fun x hx => ?_, List.pairwise_cons.mpr h⟩
      rcases List.mem_cons.mp hx with rfl | hx
      · exact h₁
      · exact h₁.trans (h.1 x hx)
    · subst h₂
      exact List.pairwise_cons.mpr h
    · refine List.pairwise_cons.mpr ⟨fun x hx => ?_, ih h.2⟩
      obtain ⟨kv, hkv, rfl⟩ := List.mem_map.mp hx
      rcases mem_insertEntry hkv with rfl | hkv
      · exact lt_of_le_of_ne (le_of_not_gt h₁) (Ne.symm h₂)
      · exact h.1 _ (List.mem_map_of_mem hkv)

/-- A key above all others goes to the end. -/
theorem insertEntry_of_forall_lt {k : String} {v : Json} {kvs : List (String × Json)}
    (h : ∀ kv ∈ kvs, kv.1 < k) : insertEntry k v kvs = kvs ++ [(k, v)] := by
  induction kvs with
  | nil => rfl
  | cons kv kvs ih =>
    obtain ⟨k', v'⟩ := kv
    have hk : k' < k := h (k', v') List.mem_cons_self
    rw [insertEntry, if_neg (lt_asymm hk), if_neg (ne_of_gt hk),
      ih fun kv hkv => h kv (List.mem_cons_of_mem _ hkv), List.cons_append]

/-- `{**d, k: v}`. -/
def insert (d : Dict) (k : String) (v : Json) : Dict where
  entries := insertEntry k v.sortKeys d.entries
  sorted := sorted_insertEntry d.sorted
  sorted_values := fun kv hkv => by
    rcases mem_insertEntry hkv with rfl | h
    · exact v.sortKeys_sortKeys
    · exact d.sorted_values kv h

/-- `{**d, **kvs}`: later pairs win. -/
def insertMany (d : Dict) (kvs : List (String × Json)) : Dict :=
  kvs.foldl (fun acc kv => acc.insert kv.1 kv.2) d

/-- `{**d, **d'}`: the second dictionary wins. -/
def update (d d' : Dict) : Dict := d.insertMany d'.entries

/-- `dict(kvs)`. -/
def ofEntries (kvs : List (String × Json)) : Dict := empty.insertMany kvs

/-- The JSON object of a dictionary. -/
def toJson (d : Dict) : Json := .obj d.entries

/-- A dictionary whose values are read back exactly. -/
def Plain (d : Dict) : Prop := ∀ kv ∈ d.entries, kv.2.Plain

theorem Plain.insert {d : Dict} (h : d.Plain) {k : String} {v : Json} (hv : v.Plain) :
    (d.insert k v).Plain := by
  intro kv hkv
  rcases mem_insertEntry hkv with rfl | hkv
  · exact hv.sortKeys
  · exact h kv hkv

theorem Plain.update {d d' : Dict} (h : d.Plain) (h' : d'.Plain) : (d.update d').Plain := by
  suffices H : ∀ kvs : List (String × Json), (∀ kv ∈ kvs, kv.2.Plain) → ∀ d : Dict, d.Plain →
      (d.insertMany kvs).Plain from H d'.entries h' d h
  intro kvs
  induction kvs with
  | nil => exact fun _ d hd => hd
  | cons kv kvs ih =>
    intro hkvs d hd
    exact ih (fun kv' hkv' => hkvs kv' (List.mem_cons_of_mem _ hkv')) _
      (hd.insert (hkvs kv List.mem_cons_self))

theorem plain_toJson {d : Dict} (h : d.Plain) : d.toJson.Plain := by
  rw [toJson, Json.Plain, Json.plainMembers_iff]
  exact ⟨h, d.nodup_keys⟩

/-- **A dictionary is already sorted.** -/
theorem sortKeys_toJson (d : Dict) : d.toJson.sortKeys = d.toJson := by
  have hid : Json.sortKeysMembers d.entries = d.entries := by
    rw [Json.sortKeysMembers_eq_map]
    exact (List.map_congr_left fun kv hkv => by rw [d.sorted_values kv hkv]).trans (List.map_id' _)
  have hsorted : d.entries.Pairwise Json.keyLe :=
    (List.pairwise_map.mp d.sorted).imp fun h => le_of_lt h
  rw [toJson, Json.sortKeys, hid, hsorted.insertionSort_eq]

/-- The dictionary of a dictionary's pairs is that dictionary. -/
theorem ofEntries_entries (d : Dict) : ofEntries d.entries = d := by
  suffices H : ∀ rest : List (String × Json), ∀ acc : Dict, d.entries = acc.entries ++ rest →
      (acc.insertMany rest).entries = d.entries from Dict.ext (H d.entries empty rfl)
  intro rest
  induction rest with
  | nil => intro acc h; simpa [insertMany] using h.symm
  | cons kv rest ih =>
    intro acc h
    obtain ⟨k, v⟩ := kv
    have hv : v.sortKeys = v := d.sorted_values (k, v) (by simp [h])
    have hlt : ∀ kv ∈ acc.entries, kv.1 < k := by
      have hs := d.sorted
      rw [h, List.map_append, List.pairwise_append] at hs
      exact fun kv hkv => hs.2.2 kv.1 (List.mem_map_of_mem hkv) k (by simp)
    refine ih (acc.insert k v) ?_
    show d.entries = insertEntry k v.sortKeys acc.entries ++ rest
    rw [hv, insertEntry_of_forall_lt hlt, h, List.append_assoc, List.singleton_append]

end Dict
