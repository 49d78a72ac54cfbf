/-
Documents of unknown shape, read the way Python reads them.

A decoded JSON document is a Python value of any type; what the reader does with it raises
whatever exception Python has for a value of the wrong type.  Here is what `json.loads`,
subscripts, `.get`, `tuple`, `dict` and truth do on each type of value, and for each of them
the shape of the values it does not raise on.

* `Untyped.readText`, `Untyped.loads` — from bytes to a document;
* `Untyped.get`, `Untyped.item`, `Untyped.iter`, `Untyped.dict`, `Untyped.truthy` — the
  operations;
* `Untyped.isOk_get` and its like — when they do not raise;
* `Untyped.isOk_bind`, `Untyped.isOk_mapM` — the same of a reader made of them.

How deep a document may be nested and how many digits an integer may have is a matter of the
interpreter's settings, and so is how `int` reads a text; these are a parameter.
-/
import Mathlib.Data.String.Basic
import TestRange.Lib.Dict

namespace Untyped

/-- The exceptions that reading a document can raise. -/
inductive Raised
  | osError
  | unicodeDecodeError
  | jsonDecodeError
  | recursionError
  | keyError
  | typeError
  | attributeError
  | valueError
  | overflowError
  deriving DecidableEq, Repr

/-- What depends on the interpreter: `int(v)`, which numbers with a fraction are zero, and
which texts `json.loads` gives up on, for their nesting or for the digits of a number. -/
structure Interpreter where
  toInt : Json → Except Raised ℤ
  floatIsZero : String → Bool
  tooDeep : List Char → Bool
  tooLong : List Char → Bool
  toInt_int : ∀ n, toInt (.int n) = .ok n
  toInt_bool : ∀ b, toInt (.bool b) = .ok (if b then 1 else 0)
  toInt_raises : ∀ {v e}, toInt v = .error e → e = .typeError ∨ e = .valueError ∨ e = .overflowError

variable (I : Interpreter)

/-! ### From bytes to a document -/

/-- Line ends as text mode reads them. -/
def universalNewlines : List Char → List Char
  | '\r' :: '\n' :: cs => '\n' :: universalNewlines cs
  | '\r' :: cs => '\n' :: universalNewlines cs
  | c :: cs => c :: universalNewlines cs
  | [] => []

/-- `path.read_text(encoding="utf-8")` on the bytes of the file. -/
def readText (bytes : List UInt8) : Except Raised (List Char) :=
  match bytes.toByteArray.utf8Decode? with
  | some cs => .ok (universalNewlines cs.toList)
  | none => .error .unicodeDecodeError

/-- `json.loads(text)` -/
def loads (text : List Char) : Except Raised Json :=
  if I.tooDeep text then .error .recursionError
  else if I.tooLong text then .error .valueError
  else (Json.loads text).elim (.error .jsonDecodeError) .ok

/-! ### Operations -/

/-- `data.get(key)` -/
def get (data : Json) (key : String) : Except Raised (Option Json) :=
  match data with
  | .obj kvs => .ok (kvs.lookup key)
  | _ => .error .attributeError

/-- `data[key]` -/
def item (data : Json) (key : String) : Except Raised Json :=
  match data with
  | .obj kvs => (kvs.lookup key).elim (.error .keyError) .ok
  | _ => .error .typeError

/-- `bool(v)` -/
def truthy : Json → Bool
  | .null => false
  | .bool b => b
  | .int n => n ≠ 0
  | .float text => !I.floatIsZero text
  | .str s => s ≠ ""
  | .arr xs => !xs.isEmpty
  | .obj kvs => !kvs.isEmpty

/-- What iterating over a value yields, if it can be iterated over: characters, items, keys. -/
def items? : Json → Option (List Json)
  | .str s => some (s.toList.map fun c => .str (String.singleton c))
  | .arr xs => some xs
  | .obj kvs => some (kvs.map fun kv => .str kv.1)
  | _ => none

/-- `iter(v)` -/
def iter (v : Json) : Except Raised (List Json) := (items? v).elim (.error .typeError) .ok

/-- Whether a value may be a key of a `dict`. -/
def hashable : Json → Bool
  | .arr _ => false
  | .obj _ => false
  | _ => true

/-- A key and its value, out of an element that `dict` is given. -/
def pair (v : Json) : Except Raised (Json × Json) :=
  match items? v with
  | some [key, value] => if hashable key then .ok (key, value) else .error .typeError
  | some _ => .error .valueError
  | none => .error .typeError

/-- `dict(v)`, as the pairs it is made of. -/
def dict (v : Json) : Except Raised (List (Json × Json)) :=
  match v with
  | .obj kvs => .ok (kvs.map fun kv => (.str kv.1, kv.2))
  | _ => do
    let elements ← iter v
    elements.mapM pair

/-- `v or default` -/
def orElse (v : Option Json) (default : Json) : Json :=
  match v with
  | some v => if truthy I v then v else default
  | none => default

/-! ### Shapes -/

/-- A `dict`. -/
def IsObj (v : Json) : Prop := ∃ kvs, v = .obj kvs

/-- A `dict` with a key. -/
def HasKey (v : Json) (key : String) : Prop := (v.get? key).isSome = true

/-- A value whose elements all have a shape. -/
def ListOf (P : Json → Prop) (v : Json) : Prop := ∃ xs, items? v = some xs ∧ ∀ x ∈ xs, P x

/-- A key and a value, in any value with two elements. -/
def IsPair (v : Json) : Prop := ∃ key value, items? v = some [key, value] ∧ hashable key = true

/-- A value that `dict` takes. -/
def IsDict (v : Json) : Prop := IsObj v ∨ ListOf IsPair v

variable {I} {α β ε : Type}

@[simp] theorem isOk_ok (a : α) : (Except.ok a : Except ε α).isOk = true := rfl

@[simp] theorem isOk_error (e : ε) : (Except.error e : Except ε α).isOk = false := rfl

theorem isOk_iff {x : Except ε α} : x.isOk = true ↔ ∃ a, x = .ok a := by
  cases x <;> simp

theorem isOk_map {f : α → β} {x : Except ε α} : (x.map f).isOk = x.isOk := by
  cases x <;> rfl

theorem bind_eq_ok {x : Except ε α} {f : α → Except ε β} {b : β} :
    x >>= f = .ok b ↔ ∃ a, x = .ok a ∧ f a = .ok b := by
  cases x with
  | error e => simp [bind, Except.bind]
  | ok a => simp [bind, Except.bind]

/-- A reader made of two does not raise when neither does. -/
theorem isOk_bind {x : Except ε α} {f : α → Except ε β} :
    (x >>= f).isOk = true ↔ ∃ a, x = .ok a ∧ (f a).isOk = true := by
  cases x with
  | error e => simp [bind, Except.bind]
  | ok a => simp [bind, Except.bind]

/-- Where the second reader does not depend on what the first one found. -/
theorem isOk_bind_of {x : Except ε α} {f : α → Except ε β} {p : Prop}
    (h : ∀ a, x = .ok a → ((f a).isOk = true ↔ p)) :
    (x >>= f).isOk = true ↔ x.isOk = true ∧ p := by
  rw [isOk_bind, isOk_iff]
  constructor
  · rintro ⟨a, hx, hf⟩
    exact ⟨⟨a, hx⟩, (h a hx).mp hf⟩
  · rintro ⟨⟨a, hx⟩, hp⟩
    exact ⟨a, hx, (h a hx).mpr hp⟩

/-- Elements are read one by one. -/
theorem isOk_mapM {f : α → Except ε β} {xs : List α} :
    (xs.mapM f).isOk = true ↔ ∀ x ∈ xs, (f x).isOk = true := by
  induction xs with
  | nil => simp [List.mapM_nil, pure, Except.pure]
  | cons x xs ih =>
    rw [List.mapM_cons, List.forall_mem_cons, ← ih]
    refine isOk_bind_of fun y _ => ?_
    rw [isOk_bind, isOk_iff]
    simp [pure, Except.pure]

theorem mapM_eq_ok {f : α → Except ε β} {xs : List α} {ys : List β} (h : xs.mapM f = .ok ys) :
    xs.map f = ys.map .ok := by
  induction xs generalizing ys with
  | nil =>
    obtain rfl : [] = ys := by simpa [pure, Except.pure] using h
    rfl
  | cons x xs ih =>
    rw [List.mapM_cons] at h
    obtain ⟨y, hy, h⟩ := bind_eq_ok.mp h
    obtain ⟨ys', hys', h⟩ := bind_eq_ok.mp h
    obtain rfl : y :: ys' = ys := by simpa [pure, Except.pure] using h
    rw [List.map_cons, List.map_cons, hy, ih hys']

/-- What can be told of each result from its element. -/
theorem map_mapM {γ : Type} {f : α → Except ε β} {g : β → γ} {g' : α → γ} {xs : List α} {ys : List β}
    (h : xs.mapM f = .ok ys) (hf : ∀ x y, f x = .ok y → g y = g' x) : ys.map g = xs.map g' := by
  have hlist := mapM_eq_ok h
  clear h
  induction xs generalizing ys with
  | nil => rw [List.map_eq_nil_iff.mp hlist.symm]; rfl
  | cons x xs ih =>
    obtain ⟨y, ys', rfl, hy, hys⟩ := List.map_eq_cons_iff.mp hlist.symm
    rw [List.map_cons, List.map_cons, hf x y hy.symm, ih hys.symm]

theorem mem_mapM {f : α → Except ε β} {xs : List α} {ys : List β} (h : xs.mapM f = .ok ys) {y : β}
    (hy : y ∈ ys) : ∃ x ∈ xs, f x = .ok y := by
  rw [← List.mem_map, mapM_eq_ok h]
  exact List.mem_map_of_mem hy

theorem exists_of_mapM {f : α → Except ε β} {xs : List α} {ys : List β} (h : xs.mapM f = .ok ys)
    {x : α} (hx : x ∈ xs) : ∃ y ∈ ys, f x = .ok y := by
  have hmem : f x ∈ ys.map .ok := by
    rw [← mapM_eq_ok h]
    exact List.mem_map_of_mem hx
  obtain ⟨y, hy, heq⟩ := List.mem_map.mp hmem
  exact ⟨y, hy, heq.symm⟩

theorem get_eq_ok {data : Json} {key : String} {v : Option Json} :
    get data key = .ok v ↔ IsObj data ∧ v = data.get? key := by
  cases data <;> simp [get, IsObj, Json.get?, eq_comm]

theorem get_of_isObj {data : Json} (h : IsObj data) (key : String) :
    get data key = .ok (data.get? key) :=
  get_eq_ok.mpr ⟨h, rfl⟩

theorem isOk_get (data : Json) (key : String) : (get data key).isOk = true ↔ IsObj data := by
  cases data <;> simp [get, IsObj]

theorem isOk_item {data : Json} {key : String} : (item data key).isOk = true ↔ HasKey data key := by
  cases data with
  | obj kvs =>
    rw [item, HasKey, Json.get?]
    cases kvs.lookup key <;> simp
  | _ => simp [item, HasKey, Json.get?]

/-- Only a `dict` has keys. -/
theorem HasKey.isObj {data : Json} {key : String} (h : HasKey data key) : IsObj data := by
  cases data with
  | obj kvs => exact ⟨kvs, rfl⟩
  | _ => simp [HasKey, Json.get?] at h

theorem isOk_pair {v : Json} : (pair v).isOk = true ↔ IsPair v := by
  unfold pair IsPair
  split
  · case h_1 key value heq =>
    rw [heq]
    by_cases hkey : hashable key = true
    · simp [hkey]
    · simp [hkey]
  · case h_2 xs hne heq =>
    rw [heq]
    refine iff_of_false (by simp) ?_
    rintro ⟨key, value, hsome, -⟩
    exact hne key value (Option.some.inj (heq.symm.trans (heq.trans hsome)))
  · case h_3 heq => simp [heq]

theorem iter_bind_isOk {v : Json} {f : List Json → Except Raised β} {P : Json → Prop}
    (h : ∀ xs, (f xs).isOk = true ↔ ∀ x ∈ xs, P x) : (iter v >>= f).isOk = true ↔ ListOf P v := by
  rw [isOk_bind, ListOf, iter]
  cases items? v with
  | none => simp
  | some xs => simp [h]

theorem isOk_dict {v : Json} : (dict v).isOk = true ↔ IsDict v := by
  unfold dict IsDict
  split
  · case h_1 kvs => exact iff_of_true rfl (.inl ⟨kvs, rfl⟩)
  · case h_2 hne =>
    have hobj : ¬ IsObj v := fun ⟨kvs, heq⟩ => hne kvs heq
    rw [or_iff_right hobj]
    refine iter_bind_isOk fun xs => ?_
    rw [isOk_mapM]
    exact forall₂_congr fun x _ => isOk_pair

/-! ### Texts -/

/-- A text without carriage returns is read as it is. -/
theorem universalNewlines_of_notMem {cs : List Char} (h : '\r' ∉ cs) : universalNewlines cs = cs := by
  induction cs with
  | nil => rfl
  | cons c cs ih =>
    rw [List.mem_cons, not_or] at h
    rw [universalNewlines.eq_3, ih h.2]
    · rintro _ rfl
      exact absurd rfl h.1
    · rintro rfl
      exact absurd rfl h.1

/-- A text that was encoded is read back. -/
theorem readText_utf8 {cs : List Char} (h : '\r' ∉ cs) :
    readText (cs.flatMap String.utf8EncodeChar) = .ok cs := by
  have hdecode : (cs.flatMap String.utf8EncodeChar).toByteArray.utf8Decode? = some cs.toArray :=
    List.utf8Decode?_utf8Encode
  rw [readText, hdecode]
  exact congrArg Except.ok (universalNewlines_of_notMem h)

/-- Bytes that are no UTF-8 raise an exception of their own. -/
theorem readText_error {bytes : List UInt8} {e : Raised} (h : readText bytes = .error e) :
    e = .unicodeDecodeError := by
  unfold readText at h
  split at h
  · cases h
  · exact (Except.error.inj h).symm

/-- What `json.loads` returns. -/
theorem loads_ok {text : List Char} {data : Json} : loads I text = .ok data ↔
    I.tooDeep text = false ∧ I.tooLong text = false ∧ Json.loads text = some data := by
  unfold loads
  split_ifs with hdeep hlong
  · simp [hdeep]
  · simp [hlong]
  · cases Json.loads text <;> simp [hdeep, hlong]

/-- An interpreter without limits, for documents whose numbers are integers. -/
def unlimited : Interpreter where
  toInt
    | .int n => .ok n
    | .bool b => .ok (if b then 1 else 0)
    | .float _ => .error .valueError
    | .str _ => .error .valueError
    | _ => .error .typeError
  floatIsZero text := text = "0.0"
  tooDeep _ := false
  tooLong _ := false
  toInt_int _ := rfl
  toInt_bool _ := rfl
  toInt_raises {v e} h := by
    cases v <;> cases h <;> simp

end Untyped
