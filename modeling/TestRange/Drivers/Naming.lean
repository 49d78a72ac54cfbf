/-
How the drivers name what they create.

A name is composed of the kind, the first eight characters of the run id and the name in
the plan, and then cleaned to what the backend allows.  Where cleaning or shortening loses
something, six characters of a digest of the composed text are appended.

* `shorten` — the cleaning all three drivers share;
* `lvName`, `pveName`, `esxiName` — its instances for libvirt, Proxmox and ESXi;
* `libvirtNaming`, `proxmoxNaming`, `esxiNaming` — the naming of the three drivers.
-/
import TestRange.Orchestrator.Provision

namespace TestRange

/-! ### Cleaning -/

/-- `re.sub(r"[^...]+", "-", value)`: a run of characters outside the class becomes one
hyphen.  The flag says that such a run is being read. -/
def subRuns (ok : Char → Bool) : Bool → List Char → List Char
  | _, [] => []
  | inside, c :: cs =>
    if ok c then c :: subRuns ok false cs
    else if inside then subRuns ok true cs
    else '-' :: subRuns ok true cs

/-- `value.strip("-")` -/
def stripHyphens (cs : List Char) : List Char :=
  ((cs.dropWhile (· = '-')).reverse.dropWhile (· = '-')).reverse

/-- `re.sub(r"-{2,}", "-", value)`; the flag says that the last character was a hyphen. -/
def squeezeHyphens : Bool → List Char → List Char
  | _, [] => []
  | after, c :: cs =>
    if c = '-' then
      if after then squeezeHyphens true cs else c :: squeezeHyphens true cs
    else c :: squeezeHyphens false cs

/-- `value or "x"` -/
def orX (cs : List Char) : List Char := if cs = [] then ['x'] else cs

/-- `value.lower()` of a character.  The images of the two characters outside ASCII that
have an ASCII character in theirs are written out; the others are not ASCII, like the
character itself, and cleaned away all the same. -/
def lowerChar (c : Char) : List Char :=
  if c = Char.ofNat 0x212A then ['k']
  else if c = Char.ofNat 0x130 then ['i', Char.ofNat 0x307]
  else [c.toLower]

def lowerChars (cs : List Char) : List Char := cs.flatMap lowerChar

/-- Clean a text and, where that loses something or it is too long, keep its head and
append the digest of the text. -/
def shorten (digest : String → String) (fold clean : List Char → List Char) (max : ℕ)
    (value : String) : String :=
  let cleaned := clean value.toList
  if cleaned ≠ fold value.toList ∨ max < cleaned.length then
    let suffix := digest value
    String.ofList (cleaned.take (max - suffix.length - 1)) ++ "-" ++ suffix
  else String.ofList cleaned

/-- `[a-z0-9-]` -/
def isDnsChar (c : Char) : Bool := c.isLower || c.isDigit || c = '-'

section Schemes

-- Six hexadecimal characters of the digest of a text.
variable (digest : String → String)

def lvName : String → String :=
  shorten digest id (fun cs => squeezeHyphens false (orX (stripHyphens (subRuns isNameChar false cs))))
    60

def pveName : String → String :=
  shorten digest lowerChars
    (fun cs => orX (squeezeHyphens false (stripHyphens (subRuns isDnsChar false (lowerChars cs))))) 60

def esxiName : String → String :=
  shorten digest id (fun cs => orX (squeezeHyphens false (stripHyphens (subRuns isNameChar false cs))))
    78

/-- What is cleaned: `tr-{kind}-{run_id[:8]}-{name}`. -/
def rawName (runId kind name : String) : String :=
  "tr-" ++ kind ++ "-" ++ String.ofList (runId.toList.take 8) ++ "-" ++ name

/-- The suffixes of volumes, by kind. -/
def suffixes : List (String × String) :=
  [("build_disk", ".qcow2"), ("run_disk", ".qcow2"), ("data_disk", ".qcow2"),
    ("base_image", ".qcow2"), ("build_seed", ".iso"), ("boot_iso", ".iso"),
    ("sidecar_disk", ".qcow2"), ("sidecar_config", ".iso")]

/-- `volume_suffix`; another kind is a `KeyError`, and no other kind is asked for. -/
def volumeSuffix (kind : String) : String := (suffixes.lookup kind).getD ""

/-! ### The names of the drivers -/

variable {digest}

theorem rawName_ne (runId kind name : String) : (rawName runId kind name).toList ≠ [] := by
  simp [rawName]

/-- A shortened name is empty only if the text is. -/
theorem shorten_ne {fold clean : List Char → List Char} {max : ℕ} {value : String}
    (hfold : fold value.toList ≠ []) : shorten digest fold clean max value ≠ "" := by
  unfold shorten
  dsimp only
  split_ifs with hchanged
  · simp
  · obtain ⟨hsame, -⟩ := not_or.mp hchanged
    rw [not_not] at hsame
    rw [hsame]
    simpa using hfold

theorem lowerChars_ne {cs : List Char} (h : cs ≠ []) : lowerChars cs ≠ [] := by
  obtain ⟨c, cs, rfl⟩ := List.exists_cons_of_ne_nil h
  unfold lowerChars lowerChar
  rw [List.flatMap_cons]
  split_ifs <;> simp

variable (digest)

def libvirtNaming : Naming where
  composeResourceName := fun runId kind name => lvName digest (rawName runId kind name)
  volumeSuffix := volumeSuffix
  composeResourceName_ne := fun runId kind name => shorten_ne (rawName_ne runId kind name)

def proxmoxNaming : Naming where
  composeResourceName := fun runId kind name => pveName digest (rawName runId kind name)
  volumeSuffix := volumeSuffix
  composeResourceName_ne := fun runId kind name =>
    shorten_ne (lowerChars_ne (rawName_ne runId kind name))

def esxiNaming : Naming where
  composeResourceName := fun runId kind name => esxiName digest (rawName runId kind name)
  volumeSuffix := volumeSuffix
  composeResourceName_ne := fun runId kind name => shorten_ne (rawName_ne runId kind name)

end Schemes

end TestRange
