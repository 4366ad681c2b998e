import BoundedAuthority.Rust.JcsAgreement
import BoundedAuthority.V1.Platform
import BoundedAuthority.V1.RequestBinding

/-!
# Request digests in Rust

`sdks/rust/src/digest.rs`.

The digest walks the projected request once for its structure and encodes it then,
which checks the structure again.  Of the operation only the length is checked, and
against the upper bound alone: the reference also wants it not empty and printable.
So the two agree exactly on the requests whose operation is a name, or which are
refused for another reason (`requestDigest_eq_iff`).
-/

namespace BoundedAuthority.Rust

open Wire V1 JsonValue
open V1.Jcs (ceilings canon Fits FitsMember Encodable)

/-- `&str` -/
abbrev Str := { s : Bytes // Utf8.valid s = true }

namespace Digest

/-! ## The projection -/

/-- `tag1` -/
def tag1 (tag : String) : JsonValue := .array [.string (ascii tag)]

/-- `tag2` -/
def tag2 (tag : String) (value : JsonValue) : JsonValue := .array [.string (ascii tag), value]

mutual

/-- `typed`; the floats of a value are finite, so the check of them passes. -/
def typed : JsonValue → JsonValue
  | .null => tag1 "null"
  | .boolean b => tag2 "boolean" (.boolean b)
  | .integer n => tag2 "integer" (.integer n)
  | .float f => tag2 "float" (.float f)
  | .string s => tag2 "string" (.string s)
  | .array items => tag2 "array" (.array (typedItems items))
  | .object members => tag2 "object" (.object (typedMembers members))

def typedItems : List JsonValue → List JsonValue
  | [] => []
  | item :: rest => typed item :: typedItems rest

def typedMembers : List (Bytes × JsonValue) → List (Bytes × JsonValue)
  | [] => []
  | (k, v) :: rest => (k, typed v) :: typedMembers rest

end

theorem typedItems_eq (items : List JsonValue) : typedItems items = items.map typed := by
  induction items with
  | nil => rfl
  | cons item rest ih => rw [typedItems, ih, List.map_cons]

theorem typedMembers_eq (members : List (Bytes × JsonValue)) :
    typedMembers members = members.map (Prod.map id typed) := by
  induction members with
  | nil => rfl
  | cons member rest ih => rw [typedMembers, ih, List.map_cons, Prod.map, id]

theorem typed_eq (v : JsonValue) : typed v = RequestDigest.typed v := by
  induction v using JsonValue.induction with
  | array values ih =>
      rw [typed, typedItems_eq, List.map_congr_left ih, RequestDigest.typed_array]
      rfl
  | object members ih =>
      have same : members.map (Prod.map id typed) = members.map (Prod.map id RequestDigest.typed) :=
        List.map_congr_left fun m hm => Prod.ext rfl (ih m hm)
      rw [typed, typedMembers_eq, same, RequestDigest.typed_object]
      rfl
  | _ => rfl

/-- A tag is ASCII. -/
theorem representable_tag2 {tag : String} {v : JsonValue} (valid : Utf8.valid (ascii tag) = true)
    (h : Representable v) : Representable (tag2 tag v) :=
  ⟨valid, h, trivial⟩

/-- The projection of a value the types allow is one too. -/
theorem representable_typed {v : JsonValue} (h : Representable v) : Representable (typed v) := by
  induction v using JsonValue.induction with
  | null => exact ⟨show Utf8.valid (ascii "null") = true by decide, trivial⟩
  | boolean b => exact representable_tag2 (by decide) h
  | integer n => exact representable_tag2 (by decide) h
  | float x => exact representable_tag2 (by decide) h
  | string s => exact representable_tag2 (by decide) h
  | array values ih =>
      refine representable_tag2 (by decide) ?_
      show RepresentableItems (typedItems values)
      rw [typedItems_eq, representableItems_iff, List.forall_mem_map]
      exact fun v hv => ih v hv (representableItems_iff.mp h v hv)
  | object members ih =>
      refine representable_tag2 (by decide) ?_
      show RepresentableMembers (typedMembers members)
      rw [typedMembers_eq, representableMembers_iff, List.forall_mem_map]
      intro m hm
      obtain ⟨name, value⟩ := representableMembers_iff.mp h m hm
      exact ⟨name, ih m hm value⟩

/-- The signing array. -/
def signingArray (operation : Str) (castArguments : Value) : Value :=
  ⟨.array [.string operation.1, typed castArguments.1],
    ⟨operation.2, representable_typed castArguments.2, trivial⟩⟩

/-! ## The digest -/

variable (sha256 : Bytes → Bytes) (formatFinite : F64 → Bytes) (bounds : Bounds)

mutual

/-- `validate_bounds` -/
def validateBounds : JsonValue → (depth nodes : Nat) → Option Nat
  | .array items, depth, nodes => do
      let nodes := nodes + 1
      guard (nodes ≤ bounds .totalNodes)
      guard (depth ≤ bounds .depth)
      guard (items.length ≤ bounds .arrayItems)
      validateItems items (depth + 1) nodes
  | .object members, depth, nodes => do
      let nodes := nodes + 1
      guard (nodes ≤ bounds .totalNodes)
      guard (depth ≤ bounds .depth)
      guard (members.length ≤ bounds .objectMembers)
      validateMembers members (depth + 1) nodes
  | .string s, _, nodes => do
      let nodes := nodes + 1
      guard (nodes ≤ bounds .totalNodes)
      guard (s.length ≤ bounds .stringBytes)
      some nodes
  | _, _, nodes => do
      let nodes := nodes + 1
      guard (nodes ≤ bounds .totalNodes)
      some nodes

def validateItems : List JsonValue → (depth nodes : Nat) → Option Nat
  | [], _, nodes => some nodes
  | item :: rest, depth, nodes => do
      let nodes ← validateBounds item depth nodes
      validateItems rest depth nodes

def validateMembers : List (Bytes × JsonValue) → (depth nodes : Nat) → Option Nat
  | [], _, nodes => some nodes
  | (k, v) :: rest, depth, nodes => do
      guard (k.length ≤ bounds .keyBytes)
      let nodes ← validateBounds v depth nodes
      validateMembers rest depth nodes

end

/-- `REQUEST_DIGEST_PREFIX` -/
def requestDigestPrefix : Bytes := ascii "BAP1-REQUEST" ++ [0]

/-- `request_digest_with` -/
def requestDigestWith (head : Bytes) (operation : Str) (castArguments : Value) : Option Bytes := do
  guard (operation.1.length ≤ bounds .operationBytes)
  let signing := signingArray operation castArguments
  let _ ← validateBounds bounds signing.1 1 0
  let jcsBytes ← Jcs.jcsEncode formatFinite bounds signing
  some (Base64.encode (sha256 (head ++ jcsBytes)))

/-- `request_digest` -/
def requestDigest : (operation : Str) → (castArguments : Value) → Option Bytes :=
  requestDigestWith sha256 formatFinite bounds requestDigestPrefix

/-! ## The walk -/

variable {sha256 formatFinite bounds}

/-- The walk goes through a value and counts its nodes. -/
def Walks (bounds : Bounds) (depth : Nat) (v : JsonValue) : Prop := ∀ nodes,
  nodes + v.nodes ≤ bounds .totalNodes → validateBounds bounds v depth nodes =
    some (nodes + v.nodes)

theorem validateItems_of_walks {depth : Nat} {items : List JsonValue} : ∀ {nodes : Nat},
    (∀ v ∈ items, Walks bounds depth v) → nodes + nodesItems items ≤ bounds .totalNodes →
    validateItems bounds items depth nodes = some (nodes + nodesItems items) := by
  induction items with
  | nil => intro nodes _ _; rfl
  | cons item rest ih =>
      intro nodes walks under
      rw [nodesItems] at under ⊢
      rw [validateItems, walks item List.mem_cons_self nodes (by omega), Option.bind_eq_bind,
        Option.bind_some, ih (fun v hv => walks v (List.mem_cons_of_mem _ hv)) (by omega),
        Nat.add_assoc]

theorem validateMembers_of_walks {depth : Nat} {members : List (Bytes × JsonValue)} :
    ∀ {nodes : Nat},
    (∀ m ∈ members, m.1.length ≤ bounds .keyBytes ∧ Walks bounds depth m.2) →
    nodes + nodesMembers members ≤ bounds .totalNodes →
    validateMembers bounds members depth nodes = some (nodes + nodesMembers members) := by
  induction members with
  | nil => intro nodes _ _; rfl
  | cons member rest ih =>
      intro nodes walks under
      obtain ⟨short, walk⟩ := walks member List.mem_cons_self
      rw [nodesMembers] at under ⊢
      rw [validateMembers]
      refine guard_bind_eq_some.mpr ⟨short, ?_⟩
      rw [walk nodes (by omega), Option.bind_eq_bind, Option.bind_some,
        ih (fun m hm => walks m (List.mem_cons_of_mem _ hm)) (by omega), Nat.add_assoc]

/-- The walk goes through every value that fits. -/
theorem walks_of_fits (v : JsonValue) :
    ∀ {depth : Nat}, Fits bounds depth v → Walks bounds depth v := by
  induction v using JsonValue.induction with
  | array values ih =>
      intro depth fits nodes under
      obtain ⟨low, count, items⟩ := V1.Jcs.fits_array.mp fits
      rw [JsonValue.nodes] at under ⊢
      rw [validateBounds]
      refine guard_bind_eq_some.mpr ⟨by omega, guard_bind_eq_some.mpr ⟨low,
        guard_bind_eq_some.mpr ⟨count, ?_⟩⟩⟩
      rw [validateItems_of_walks (fun v hv => ih v hv (items v hv)) (by omega)]
      exact congrArg some (by omega)
  | object members ih =>
      intro depth fits nodes under
      obtain ⟨low, count, -, values⟩ := V1.Jcs.fits_object.mp fits
      rw [JsonValue.nodes] at under ⊢
      rw [validateBounds]
      refine guard_bind_eq_some.mpr ⟨by omega, guard_bind_eq_some.mpr ⟨low,
        guard_bind_eq_some.mpr ⟨count, ?_⟩⟩⟩
      rw [validateMembers_of_walks (fun m hm => ⟨(values m hm).1.1, ih m hm (values m hm).2⟩)
        (by omega)]
      exact congrArg some (by omega)
  | string s =>
      intro depth fits nodes under
      rw [validateBounds]
      exact guard_bind_eq_some.mpr ⟨under, guard_bind_eq_some.mpr ⟨fits.within.1, rfl⟩⟩
  | _ =>
      intro depth fits nodes under
      exact guard_bind_eq_some.mpr ⟨under, rfl⟩

/-! ## The two digests -/

/-- What the digest asks of a request: an operation that is not too long, and an array of
the operation and the projection that can be written. -/
structure Digestible (bounds : Bounds) (operation : Bytes) (castArguments : JsonValue) : Prop where
  length : operation.length ≤ bounds .operationBytes
  encodable : Encodable bounds (bounds .depth) (RequestDigest.request operation castArguments)
  nodes : (RequestDigest.request operation castArguments).nodes ≤ bounds .totalNodes

theorem signingArray_eq (operation : Str) (castArguments : Value) :
    (signingArray operation castArguments).1 =
      RequestDigest.request operation.1 castArguments.1 := by
  show JsonValue.array [.string operation.1, typed castArguments.1] = _
  rw [typed_eq, RequestDigest.request]

theorem requestDigest_eq_some (ecma : Jcs.Ecma formatFinite) {operation : Str}
    {castArguments : Value}
    {digest : Bytes} : requestDigest sha256 formatFinite bounds operation castArguments =
      some digest ↔
      Digestible bounds operation.1 castArguments.1 ∧ digest = Base64.encode
        (sha256 (requestDigestPrefix ++
          canon (RequestDigest.request operation.1 castArguments.1))) := by
  simp only [requestDigest, requestDigestWith, Option.bind_eq_bind, Option.bind_eq_some_iff,
    guard_eq_some, exists_const, Jcs.jcsEncode_eq_some ecma, signingArray_eq, Option.some.injEq]
  constructor
  · rintro ⟨length, _, -, _, ⟨encodable, nodes, rfl⟩, rfl⟩
    exact ⟨⟨length, encodable, nodes⟩, rfl⟩
  · rintro ⟨⟨length, encodable, nodes⟩, rfl⟩
    have fits := (V1.Jcs.encodable_iff.mp encodable).1
    exact ⟨length, _, walks_of_fits _ fits 0 (by omega), _, ⟨encodable, nodes, rfl⟩, rfl⟩

theorem digest_eq_some {otp : Otp} {operation : Bytes} {castArguments : JsonValue}
    {digest : Bytes} :
    RequestDigest.digest otp operation castArguments bounds = some digest ↔
      validOperation operation bounds = true ∧ Digestible bounds operation castArguments ∧
        digest = Base64.encode
          (otp.sha256 (requestDigestPrefix ++
            canon (RequestDigest.request operation castArguments))) := by
  simp only [RequestDigest.digest, RequestDigest.digestWith, Bounds.coerce_toLimits,
    Option.bind_eq_bind, Option.bind_some, Option.bind_eq_some_iff, guard_eq_some, exists_const,
    V1.Jcs.encode_eq_some, Option.some.injEq]
  constructor
  · rintro ⟨valid, _, ⟨encodable, nodes, rfl⟩, rfl⟩
    have valid' := valid
    simp only [validOperation, Bool.and_eq_true, decide_eq_true_eq] at valid'
    exact ⟨valid, ⟨valid'.1.2, encodable, nodes⟩, rfl⟩
  · rintro ⟨valid, ⟨-, encodable, nodes⟩, rfl⟩
    exact ⟨valid, _, ⟨encodable, nodes, rfl⟩, rfl⟩

/-- The two digests of a request are the same, or both are refused, exactly when the
operation is a name or the request is refused for something else. -/
theorem requestDigest_eq_iff (otp : Otp) (ecma : Jcs.Ecma formatFinite) (bounds : Bounds)
    (operation : Str) (castArguments : Value) :
    requestDigest otp.sha256 formatFinite bounds operation castArguments =
        RequestDigest.digest otp operation.1 castArguments.1 bounds ↔
      (Digestible bounds operation.1 castArguments.1 → validOperation operation.1 bounds =
        true) := by
  constructor
  · intro same digestible
    have written := same ▸ (requestDigest_eq_some ecma).mpr ⟨digestible, rfl⟩
    exact (digest_eq_some.mp written).1
  · intro valid
    refine Option.ext fun digest => ?_
    rw [requestDigest_eq_some ecma, digest_eq_some]
    constructor
    · rintro ⟨digestible, same⟩
      exact ⟨valid digestible, digestible, same⟩
    · rintro ⟨_, digestible, same⟩
      exact ⟨digestible, same⟩

/-- An operation that is a name. -/
theorem requestDigest_eq_iff_named :
    ∃ (operation : Str) (castArguments : Value), operation.1 = ascii "read" ∧
      requestDigest (Otp.listed []).sha256 Ecmascript.numberToString .maximum operation
        castArguments =
        RequestDigest.digest (Otp.listed []) operation.1 castArguments.1 Bounds.maximum := by
  refine ⟨⟨ascii "read", by decide⟩, ⟨.null, trivial⟩, rfl, ?_⟩
  have ecma : Jcs.Ecma Ecmascript.numberToString := fun _ => rfl
  have iff := requestDigest_eq_iff (Otp.listed []) ecma .maximum ⟨ascii "read", by decide⟩
    ⟨.null, trivial⟩
  exact iff.mpr fun _ => by decide

/-- The empty operation and one with a control character are digested, and the reference
refuses both. -/
theorem nameless_operation_digested :
    let digested := fun operation => (requestDigest (Otp.listed []).sha256 Ecmascript.numberToString
      .maximum operation ⟨.null, trivial⟩).isSome
    digested ⟨[], by decide⟩ = true ∧
      RequestDigest.digest (Otp.listed []) [] .null Bounds.maximum = none ∧
      digested ⟨[0x07], by decide⟩ = true ∧
      RequestDigest.digest (Otp.listed []) [0x07] .null Bounds.maximum = none := by
  refine ⟨?_, ?_, ?_, ?_⟩ <;> decide

end Digest

end BoundedAuthority.Rust
