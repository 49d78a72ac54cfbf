/-
What a run acts on, and what the calls of its hooks do to it.

The backend is a list of objects.  A create call may add its object and then return or
raise; a destroy call may raise with or without having removed.  A store call may
raise before or after its effect.  The context holds the in-memory dictionaries that
hooks share, and the driver's own memory of the segments its networks stand for.

* `destroyTarget` — the driver's dispatch on a recorded resource;
* `SysOp` — the calls of hooks and teardown; `sysSem` — what they may do.
-/
import TestRange.Plan
import TestRange.Orchestrator.Executor

namespace TestRange

/-- Exceptions, by what the code can tell of them. -/
inductive Err
  /-- `KeyError` -/
  | key (k : String)
  /-- `ValueError` of a volume kind without `pool_backend`. -/
  | missingPoolBackend
  /-- `NotImplementedError` of an unknown kind. -/
  | unknownKind (kind : String)
  | orchestrator
  /-- Raised by a call to the driver, the store or the cache, before its effect or
  after it. -/
  | call (late : Bool)
  deriving DecidableEq

/-- Raised after the effect of the call. -/
def Err.late : Err → Bool
  | .call late => late
  | _ => false

/-! ### The backend -/

/-- What a driver creates.  A volume is known by what its reference is composed of. -/
inductive Obj
  | pool (name : String)
  | switch (name : String)
  | network (name : String)
  | vm (name : String)
  | volume (pool name : String)
  deriving DecidableEq, Repr

/-- The name under which an object is recorded. -/
def Obj.name : Obj → String
  | .pool name => name
  | .switch name => name
  | .network name => name
  | .vm name => name
  | .volume _ name => name

/-- What goes when `o` is destroyed: a pool goes with its volumes. -/
def Obj.takes (o x : Obj) : Bool :=
  match o, x with
  | .pool p, .volume p' _ => p = p'
  | _, _ => false

/-- Whether `x` goes when `o` is destroyed. -/
def Obj.affects (o x : Obj) : Bool := x = o || o.takes x

/-- A character in the `repr` of a text between these quotes.  Beyond Latin-1 a character is taken to
be printable. -/
def reprChar (quote c : Char) : List Char :=
  if c = quote ∨ c = '\\' then ['\\', c]
  else if c = '\n' then ['\\', 'n']
  else if c = '\r' then ['\\', 'r']
  else if c = '\t' then ['\\', 't']
  else if c.toNat < 0x20 ∨ (0x7f ≤ c.toNat ∧ c.toNat ≤ 0xa0) ∨ c.toNat = 0xad then
    ['\\', 'x', Nat.digitChar (c.toNat / 16), Nat.digitChar (c.toNat % 16)]
  else [c]

/-- `repr` of a text: in single quotes, but for one that has these and no double ones. -/
def reprText (s : String) : List Char :=
  let single := Char.ofNat 39
  let quote := if single ∈ s.toList ∧ '"' ∉ s.toList then '"' else single
  quote :: (s.toList.flatMap (reprChar quote) ++ [quote])

mutual

/-- `repr(value)`; a fractional number is in its shortest spelling already. -/
def reprJson : Json → List Char
  | .null => "None".toList
  | .bool true => "True".toList
  | .bool false => "False".toList
  | .int n => Json.renderInt n
  | .float "NaN" => "nan".toList
  | .float "Infinity" => "inf".toList
  | .float "-Infinity" => "-inf".toList
  | .float text => text.toList
  | .str s => reprText s
  | .arr [] => ['[', ']']
  | .arr (x :: xs) => '[' :: (reprJson x ++ reprItems xs ++ [']'])
  | .obj [] => ['\x7b', '\x7d']
  | .obj ((k, v) :: kvs) =>
    '\x7b' :: (reprText k ++ ": ".toList ++ reprJson v ++ reprMembers kvs ++ ['\x7d'])

/-- The items of a list after its first. -/
def reprItems : List Json → List Char
  | [] => []
  | x :: xs => ", ".toList ++ reprJson x ++ reprItems xs

/-- The items of a dict after its first. -/
def reprMembers : List (String × Json) → List Char
  | [] => []
  | (k, v) :: kvs => ", ".toList ++ reprText k ++ ": ".toList ++ reprJson v ++ reprMembers kvs

end

/-- `str(value)`, of a value that was read back from the store. -/
def pyStr : Json → String
  | .str s => s
  | v => String.ofList (reprJson v)

example : pyStr (.arr [.int 5, .bool true, .str "a"]) = "[5, True, 'a']" := rfl

/-- `bool(value)` -/
def truthy : Json → Bool
  | .null => false
  | .bool b => b
  | .int n => n ≠ 0
  | .float text => text.toList.any fun c => '1' ≤ c && c ≤ '9'
  | .str s => s ≠ ""
  | .arr xs => !xs.isEmpty
  | .obj kvs => !kvs.isEmpty

def volumeKinds : List String :=
  ["build_disk", "build_seed", "boot_iso", "run_disk", "data_disk", "base_image", "volume",
    "sidecar_disk", "sidecar_config"]

/-- What `destroy(kind, backend_name, **metadata)` removes. -/
def destroyTarget (kind backendName : String) (metadata : Dict) : Except Err Obj :=
  if kind ∈ ["network", "build_network"] then .ok (.network backendName)
  else if kind ∈ ["pool", "build_pool"] then .ok (.pool backendName)
  else if kind ∈ ["vm", "build_vm", "sidecar_vm"] then .ok (.vm backendName)
  else if kind ∈ volumeKinds then
    match metadata.get? "pool_backend" with
    | some poolBackend =>
      if truthy poolBackend then .ok (.volume (pyStr poolBackend) backendName)
      else .error .missingPoolBackend
    | none => .error .missingPoolBackend
  else if kind ∈ ["switch", "build_switch"] then .ok (.switch backendName)
  else .error (.unknownKind kind)

/-- What destroying a recorded resource removes. -/
def Resource.target (r : Resource) : Except Err Obj :=
  destroyTarget r.kind r.backendName r.metadata

/-! ### The context -/

/-- The shared build infrastructure, once it is up. -/
structure BuildInfra where
  active : Bool
  poolBackend : Option String
  netBackend : Option String
  buildSwitch : Option Switch

def BuildInfra.down : BuildInfra := ⟨false, none, none, none⟩

/-- The in-memory dictionaries hooks share. -/
structure Ctx where
  poolBackends : String → Option String
  networkBackends : String → Option String
  switchBackends : String → Option String
  sidecarBackends : String → Option String
  /-- The roles of the captured disks, by VM. -/
  builtDiskPaths : String → Option (List String)
  buildInfra : BuildInfra

/-- The context of a new process. -/
def Ctx.fresh : Ctx where
  poolBackends := fun _ => none
  networkBackends := fun _ => none
  switchBackends := fun _ => none
  sidecarBackends := fun _ => none
  builtDiskPaths := fun _ => none
  buildInfra := .down

/-- Everything but `state.json`: the backend, and what is in memory. -/
structure Sys where
  live : List Obj
  /-- What the NICs of the VMs were wired to, at their creation. -/
  wired : List (String × List String)
  /-- The driver's memory of what its networks stand for. -/
  segments : String → Option String
  ctx : Ctx
  /-- Whether the lock of the build infrastructure is held. -/
  infraLock : Bool

/-! ### Calls -/

/-- The calls of hooks and of teardown. -/
inductive SysOp
  | recordIntent (kind backendName : String) (planName : Option String) (metadata : Dict)
  | confirm (backendName : String) (metadata : Dict)
  | forget (backendName : String)
  /-- `create_pool`, or a call that makes a volume. -/
  | create (o : Obj)
  | createSwitch (sw : Switch) (backendName : String)
  | createNetwork (net backendName switchBackend : String)
  /-- `create_vm`, with the networks of the NICs and `network_refs`. -/
  | createVm (backendName : String) (nics : List String) (networkRefs : String → Option String)
  /-- `destroy_pool`, `destroy_switch`, `destroy_network`, `destroy_vm`, `delete_volume`. -/
  | remove (o : Obj)
  /-- `driver.destroy` -/
  | destroy (kind backendName : String) (metadata : Dict)
  /-- Any other call to the driver, the cache or a guest. -/
  | work
  | readCtx
  /-- An update of the dictionaries. -/
  | updateCtx (f : Ctx → Ctx)
  | setInfra (infra : BuildInfra)
  | acquireInfraLock
  | releaseInfraLock

def sysSig : Sig where
  Op := SysOp
  Res
    | .createSwitch _ _ => Option String
    | .readCtx => Ctx
    | _ => Unit

/-- What is known of a driver: the uplink segment a switch with a masquerading sidecar
gets, and the segment a network stands for. -/
structure Driver where
  uplinkSegment : Switch → String
  segment : (net switchBackend : String) → String

section Semantics

/-- An answer that calls to the outside give. -/
def Outside {α : Type} (r : Except Err α) : Prop := ∀ e, r = .error e → ∃ late, e = .call late

/-- A call to the store. -/
def storeCall (m : String → Mutation) (w : World Sys) (r : Except Err Unit) (w' : World Sys) :
    Prop :=
  Outside r ∧ mutates Err.late m w r w'

/-- A call that adds `o`. -/
def createCall {α : Type} (o : Obj) (w : World Sys) (r : Except Err α) (w' : World Sys) : Prop :=
  Outside r ∧
    ((Effective Err.late r ∧ w' = { w with rest := { w.rest with live := o :: w.rest.live } }) ∨
      (¬ Effective Err.late r ∧ w' = w))

/-- A call that removes `o`: if it returns, all of it is gone, else some of it may be. -/
def removeCall (o : Obj) (w : World Sys) (r : Except Err Unit) (w' : World Sys) : Prop :=
  Outside r ∧ ∃ gone : Obj → Bool, (∀ x, gone x → o.affects x) ∧
    (r = .ok () → ∀ x, o.affects x → gone x) ∧
    w' = { w with rest := { w.rest with live := w.rest.live.filter fun x => !gone x } }

/-- The driver remembers what a network it has created stands for. -/
def rememberSegment (backendName segment : String) (w : World Sys) : World Sys :=
  { w with rest := { w.rest with
      segments := Function.update w.rest.segments backendName (some segment) } }

/-- A VM is asked for with NICs on some segments. -/
def wire (backendName : String) (segs : List String) (w : World Sys) : World Sys :=
  { w with rest := { w.rest with wired := (backendName, segs) :: w.rest.wired } }

/-- The segments a driver wires NICs to: its own name for a network it knows, else the
name it is given.  The first network without a reference is a `KeyError`. -/
def resolveNics (segments : String → Option String) (networkRefs : String → Option String) :
    List String → Except Err (List String)
  | [] => .ok []
  | net :: nets => do
    let backend ← match networkRefs net with
      | some backend => .ok backend
      | none => .error (.key net)
    let rest ← resolveNics segments networkRefs nets
    .ok ((segments backend).getD backend :: rest)

variable (drv : Driver)

/-- What the calls may answer and do. -/
def sysSem : Prog.Sem sysSig Err (World Sys)
  | .recordIntent kind backendName planName metadata, w, r, w' =>
    storeCall (.recordIntent kind backendName planName metadata) w r w'
  | .confirm backendName metadata, w, r, w' => storeCall (.confirm backendName metadata) w r w'
  | .forget backendName, w, r, w' => storeCall (fun _ => .forget backendName) w r w'
  | .create o, w, r, w' => createCall o w r w'
  | .createSwitch sw backendName, w, r, w' =>
    createCall (.switch backendName) w r w' ∧
      ∀ uplink, r = .ok uplink → uplink = if sw.nat then some (drv.uplinkSegment sw) else none
  | .createNetwork net backendName switchBackend, w, r, w' =>
    ∃ w₁, createCall (.network backendName) w r w₁ ∧
      w' = if r.isOk then rememberSegment backendName (drv.segment net switchBackend) w₁ else w₁
  | .createVm backendName nics networkRefs, w, r, w' =>
    match resolveNics w.rest.segments networkRefs nics with
    | .error e => r = .error e ∧ w' = w
    | .ok segs => ∃ w₁, createCall (.vm backendName) w r w₁ ∧ w' = wire backendName segs w₁
  | .remove o, w, r, w' => removeCall o w r w'
  | .destroy kind backendName metadata, w, r, w' =>
    match destroyTarget kind backendName metadata with
    | .error e => r = .error e ∧ w' = w
    | .ok o => removeCall o w r w'
  | .work, w, r, w' => Outside r ∧ w' = w
  | .readCtx, w, r, w' => r = .ok w.rest.ctx ∧ w' = w
  | .updateCtx f, w, r, w' => r = .ok () ∧ w' = { w with rest := { w.rest with
      ctx := { f w.rest.ctx with buildInfra := w.rest.ctx.buildInfra } } }
  | .setInfra infra, w, r, w' => r = .ok () ∧ w' = { w with rest := { w.rest with
      ctx := { w.rest.ctx with buildInfra := infra } } }
  | .acquireInfraLock, w, r, w' => w.rest.infraLock = false ∧ r = .ok () ∧
      w' = { w with rest := { w.rest with infraLock := true } }
  | .releaseInfraLock, w, r, w' =>
    r = .ok () ∧ w' = { w with rest := { w.rest with infraLock := false } }

variable {drv} {w w' : World Sys}

/-- The mutation a call makes of `state.json`, at some clock reading. -/
def SysOp.mutation : SysOp → Option (String → Mutation)
  | .recordIntent kind backendName planName metadata =>
    some (.recordIntent kind backendName planName metadata)
  | .confirm backendName metadata => some (.confirm backendName metadata)
  | .forget backendName => some fun _ => .forget backendName
  | _ => none

theorem ledger_createCall {α : Type} {o : Obj} {r : Except Err α} (h : createCall o w r w') :
    w'.ledger = w.ledger := by
  obtain ⟨-, ⟨-, rfl⟩ | ⟨-, rfl⟩⟩ := h <;> rfl

theorem ledger_removeCall {o : Obj} {r : Except Err Unit} (h : removeCall o w r w') :
    w'.ledger = w.ledger := by
  obtain ⟨-, gone, -, -, rfl⟩ := h
  rfl

/-- A call that is no mutation leaves `state.json` as it is. -/
theorem ledger_eq_of_mutation {o : SysOp} {r : Except Err (sysSig.Res o)}
    (h : sysSem drv o w r w') (ho : o.mutation = none) : w'.ledger = w.ledger := by
  cases o with
  | recordIntent => cases ho
  | confirm => cases ho
  | forget => cases ho
  | create o => exact ledger_createCall h
  | createSwitch sw backendName => exact ledger_createCall h.1
  | createNetwork net backendName switchBackend =>
    obtain ⟨w₁, h₁, rfl⟩ := h
    rw [← ledger_createCall h₁]
    split <;> rfl
  | createVm backendName nics networkRefs =>
    simp only [sysSem] at h
    split at h
    · rw [h.2]
    · obtain ⟨w₁, h₁, rfl⟩ := h
      rw [← ledger_createCall h₁, wire]
  | remove o => exact ledger_removeCall h
  | destroy kind backendName metadata =>
    simp only [sysSem] at h
    split at h
    · rw [h.2]
    · exact ledger_removeCall h
  | work => rw [h.2]
  | readCtx => rw [h.2]
  | updateCtx f => rw [h.2]
  | setInfra infra => rw [h.2]
  | acquireInfraLock => rw [h.2.2]
  | releaseInfraLock => rw [h.2]

/-- A mutation is a call to the store. -/
theorem storeCall_of_mutation {o : SysOp} {r : Except Err (sysSig.Res o)} {m : String → Mutation}
    (h : sysSem drv o w r w') (ho : o.mutation = some m) :
    ∃ r' : Except Err Unit, storeCall m w r' w' ∧
      (Effective Err.late r' ↔ Effective Err.late r) := by
  cases o <;> first | (cases ho; exact ⟨r, h, Iff.rfl⟩) | cases ho

/-- Mutations of the hooks leave the node records alone. -/
theorem nodes_apply {o : SysOp} {m : String → Mutation} (ho : o.mutation = some m) {now : String}
    {s s' : State} (h : (m now).apply s = .ok s') : s'.nodes = s.nodes := by
  cases o with
  | recordIntent =>
    cases ho
    cases h
    rfl
  | confirm backendName metadata =>
    cases ho
    simp only [Mutation.apply] at h
    split at h
    · simp only [State.replaceResource] at h
      split at h
      · cases h
        rfl
      · cases h
    · cases h
  | forget =>
    cases ho
    cases h
    rfl
  | _ => cases ho

variable (drv) in
/-- The calls of hooks, which leave the completion stamps alone. -/
def sysInner : InnerSem sysSig Err Sys where
  sem := sysSem drv
  late := Err.late
  nodes_eq := by
    intro o w r w' h
    cases ho : o.mutation with
    | none => rw [ledger_eq_of_mutation h ho]
    | some m =>
      obtain ⟨r', ⟨-, ⟨-, s, now, s', hs, happly, rfl⟩ | ⟨-, rfl⟩⟩, -⟩ := storeCall_of_mutation h ho
      · rw [hs]
        exact congrArg some (nodes_apply ho happly)
      · rfl

end Semantics

end TestRange
