import BoundedAuthority.V1.RequestDigest

/-!
# What a request digest binds

The typed projection names the type of every value, so that an integer and the float
equal to it stay apart.  What canonical JSON still drops is the order of members and
the sign of a zero; `tidy` drops just these (`tidy_of_normal_typed`), and two requests
with one digest are alike or collide (`digestRawWith_bound`).
-/

namespace BoundedAuthority.V1.RequestDigest

open Wire JsonValue

/-! ## Alike values -/

/-- A zero float without its sign; any other float is left alone. -/
def tidyFloat (x : F64) : F64 :=
  if x.units = 0 then ⟨false, x.units, x.representable, x.finite⟩ else x

mutual

/-- The value with the members of every object in order and no sign on a zero float. -/
def tidy : JsonValue → JsonValue
  | .float x => .float (tidyFloat x)
  | .array values => .array (tidyItems values)
  | .object members => .object (Jcs.sortMembers (tidyMembers members))
  | .null => .null
  | .boolean b => .boolean b
  | .integer n => .integer n
  | .string s => .string s

def tidyItems : List JsonValue → List JsonValue
  | [] => []
  | value :: rest => tidy value :: tidyItems rest

def tidyMembers : List (Bytes × JsonValue) → List (Bytes × JsonValue)
  | [] => []
  | (key, value) :: rest => (key, tidy value) :: tidyMembers rest

end

/-- Equal up to the order of members and the sign of a zero float. -/
def Alike (a b : JsonValue) : Prop := tidy a = tidy b

theorem tidy_array (values : List JsonValue) : tidy (.array values) = .array (values.map tidy) := by
  suffices tidyItems values = values.map tidy by rw [tidy, this]
  induction values with
  | nil => rfl
  | cons value rest ih => rw [tidyItems, ih, List.map_cons]

theorem tidy_object (members : List (Bytes × JsonValue)) :
    tidy (.object members) = .object ((Jcs.sortMembers members).map (Prod.map id tidy)) := by
  suffices tidyMembers members = members.map (Prod.map id tidy) by
    rw [tidy, this, Jcs.sortMembers_map]
  induction members with
  | nil => rfl
  | cons member rest ih => rw [tidyMembers, ih, List.map_cons, Prod.map, id]

/-! ## The typed projection -/

theorem typed_array (values : List JsonValue) :
    typed (.array values) = tagged "array" (.array (values.map typed)) := by
  suffices mapValues values = values.map typed by rw [typed, this]
  induction values with
  | nil => rfl
  | cons value rest ih => rw [mapValues, ih, List.map_cons]

theorem typed_object (members : List (Bytes × JsonValue)) :
    typed (.object members) = tagged "object" (.object (members.map (Prod.map id typed))) := by
  suffices mapMembers members = members.map (Prod.map id typed) by rw [typed, this]
  induction members with
  | nil => rfl
  | cons member rest ih => rw [mapMembers, ih, List.map_cons, Prod.map, id]

/-- The name of the type of a value. -/
def tagOf : JsonValue → Bytes
  | .null => ascii "null"
  | .boolean _ => ascii "boolean"
  | .integer _ => ascii "integer"
  | .float _ => ascii "float"
  | .string _ => ascii "string"
  | .array _ => ascii "array"
  | .object _ => ascii "object"

/-- The normal form of what stands behind the tag. -/
def projected : JsonValue → List JsonValue
  | .null => []
  | .array values => [.array (values.map fun v => Jcs.normal (typed v))]
  | .object members =>
      [.object ((Jcs.sortMembers members).map (Prod.map id fun v => Jcs.normal (typed v)))]
  | value => [Jcs.normal value]

theorem normal_tagged (tag : String) (value : JsonValue) :
    Jcs.normal (tagged tag value) = .array [.string (ascii tag), Jcs.normal value] := by
  rw [tagged, Jcs.normal_array]
  rfl

theorem normal_typed (value : JsonValue) :
    Jcs.normal (typed value) = .array (.string (tagOf value) :: projected value) := by
  cases value with
  | null => rfl
  | array values =>
      rw [typed_array, normal_tagged, Jcs.normal_array, List.map_map]
      rfl
  | object members =>
      rw [typed_object, normal_tagged, Jcs.normal_object, Jcs.sortMembers_map, List.map_map]
      rfl
  | _ => exact normal_tagged _ _

theorem tidyFloat_of_normal {x y : F64} (h : Jcs.normal (.float x) = Jcs.normal (.float y)) :
    tidyFloat x = tidyFloat y := by
  rw [Jcs.normal, Jcs.normal] at h
  cases hx : Jcs.integral? x with
  | none =>
      rw [hx] at h
      cases hy : Jcs.integral? y with
      | none =>
          rw [hy] at h
          rw [JsonValue.float.inj h]
      | some m => rw [hy] at h; cases h
  | some n =>
      rw [hx] at h
      cases hy : Jcs.integral? y with
      | none => rw [hy] at h; cases h
      | some m =>
          rw [hy] at h
          obtain rfl := JsonValue.integer.inj h
          obtain ⟨unitsX, signX⟩ := Jcs.integral_eq_some hx
          obtain ⟨unitsY, signY⟩ := Jcs.integral_eq_some hy
          have units : x.units = y.units := unitsX.trans unitsY.symm
          unfold tidyFloat
          by_cases zero : x.units = 0
          · rw [if_pos zero, if_pos (units ▸ zero)]
            exact F64.ext rfl units
          · rw [if_neg zero, if_neg (units ▸ zero)]
            refine F64.ext (Bool.eq_iff_iff.mpr ?_) units
            rw [← units] at signY
            have same := signX.symm.trans signY
            simpa [zero] using same

/-- Lists that agree under one map agree under another one that is coarser on the
elements of the first list. -/
theorem map_eq_map_of_coarser {α β γ : Type} {f : α → β} {g : α → γ} : ∀ {as bs : List α},
    as.map f = bs.map f → (∀ a ∈ as, ∀ b, f a = f b → g a = g b) → as.map g = bs.map g
  | [], [], _, _ => rfl
  | [], _ :: _, h, _ => by cases h
  | _ :: _, [], h, _ => by cases h
  | a :: as, b :: bs, h, coarser => by
      simp only [List.map_cons, List.cons.injEq] at h ⊢
      exact ⟨coarser a List.mem_cons_self b h.1,
        map_eq_map_of_coarser h.2 fun c hc => coarser c (List.mem_cons_of_mem _ hc)⟩

theorem tagOf_injective {a b : JsonValue} (tag : tagOf a = tagOf b) : a.ctorIdx = b.ctorIdx := by
  cases a <;> cases b <;> simp only [tagOf] at tag <;>
    first | rfl | exact absurd tag (by decide)

/-- The canonical text of the typed projection determines a value up to the order of
members and the sign of a zero float. -/
theorem tidy_of_normal_typed {a b : JsonValue} (h : Jcs.normal (typed a) = Jcs.normal (typed b)) :
    tidy a = tidy b := by
  induction a using JsonValue.induction generalizing b with
  | null =>
      rw [normal_typed, normal_typed, JsonValue.array.injEq, List.cons.injEq] at h
      have kind := tagOf_injective (JsonValue.string.inj h.1)
      cases b <;> first | rfl | cases kind
  | boolean x =>
      rw [normal_typed, normal_typed, JsonValue.array.injEq, List.cons.injEq] at h
      have kind := tagOf_injective (JsonValue.string.inj h.1)
      cases b <;> first | exact (List.cons.inj h.2).1 | cases kind
  | integer n =>
      rw [normal_typed, normal_typed, JsonValue.array.injEq, List.cons.injEq] at h
      have kind := tagOf_injective (JsonValue.string.inj h.1)
      cases b <;> first | exact (List.cons.inj h.2).1 | cases kind
  | float x =>
      rw [normal_typed, normal_typed, JsonValue.array.injEq, List.cons.injEq] at h
      have kind := tagOf_injective (JsonValue.string.inj h.1)
      cases b with
      | float y => rw [tidy, tidy, tidyFloat_of_normal (List.cons.inj h.2).1]
      | _ => cases kind
  | string s =>
      rw [normal_typed, normal_typed, JsonValue.array.injEq, List.cons.injEq] at h
      have kind := tagOf_injective (JsonValue.string.inj h.1)
      cases b <;> first | exact (List.cons.inj h.2).1 | cases kind
  | array values ih =>
      rw [normal_typed, normal_typed, JsonValue.array.injEq, List.cons.injEq] at h
      have kind := tagOf_injective (JsonValue.string.inj h.1)
      cases b with
      | array others =>
          rw [tidy_array, tidy_array]
          have items := JsonValue.array.inj (List.cons.inj h.2).1
          exact congrArg _ (map_eq_map_of_coarser items fun v hv w same => ih v hv same)
      | _ => cases kind
  | object members ih =>
      rw [normal_typed, normal_typed, JsonValue.array.injEq, List.cons.injEq] at h
      have kind := tagOf_injective (JsonValue.string.inj h.1)
      cases b with
      | object others =>
          rw [tidy_object, tidy_object]
          have items := JsonValue.object.inj (List.cons.inj h.2).1
          refine congrArg _ (map_eq_map_of_coarser items fun m hm n same => ?_)
          obtain ⟨key, value⟩ := Prod.mk.inj same
          have member := (Jcs.sortMembers_perm members).mem_iff.mp hm
          exact Prod.ext key (ih m member value)
      | _ => cases kind

/-! ## The size of the projection -/

theorem length_intercalate_le {as bs : List Bytes}
    (h : List.Forall₂ (fun a b => a.length ≤ b.length) as bs) :
    (List.intercalate [0x2C] as).length ≤ (List.intercalate [0x2C] bs).length := by
  induction h with
  | nil => rfl
  | @cons a b as bs first rest ih =>
      cases rest with
      | nil => simpa using first
      | cons =>
          rw [List.intercalate_cons_cons, List.intercalate_cons_cons]
          simp only [List.length_append] at ih ⊢
          omega

theorem length_canon_tagged (tag : String) (value : JsonValue) :
    (Jcs.canon value).length ≤ (Jcs.canon (tagged tag value)).length := by
  rw [tagged, Jcs.canon_array, List.length_cons, List.length_append]
  have part : (Jcs.canon value).length ≤
      (List.intercalate [0x2C] ([.string (ascii tag), value].map Jcs.canon)).length :=
    Jcs.length_le_intercalate (List.mem_map_of_mem (by simp))
  omega

theorem length_canon_typed (value : JsonValue) :
    (Jcs.canon value).length ≤ (Jcs.canon (typed value)).length := by
  induction value using JsonValue.induction with
  | null => decide
  | array values ih =>
      rw [typed_array]
      refine le_trans ?_ (length_canon_tagged _ _)
      rw [Jcs.canon_array, Jcs.canon_array, List.map_map]
      simp only [List.length_cons, List.length_append]
      have items := @length_intercalate_le (values.map Jcs.canon)
        (values.map (Jcs.canon ∘ typed)) (List.forall₂_map_left_iff.mpr
          (List.forall₂_map_right_iff.mpr (List.forall₂_same.mpr ih)))
      omega
  | object members ih =>
      rw [typed_object]
      refine le_trans ?_ (length_canon_tagged _ _)
      rw [Jcs.canon_object, Jcs.canon_object, Jcs.sortMembers_map, List.map_map]
      simp only [List.length_cons, List.length_append]
      have each : ∀ m ∈ Jcs.sortMembers members, (Jcs.canonMember m).length ≤
          ((Jcs.canonMember ∘ Prod.map id typed) m).length := by
        intro m hm
        have := ih m ((Jcs.sortMembers_perm members).mem_iff.mp hm)
        simp only [Function.comp, Jcs.canonMember, Prod.map, id, List.length_cons,
          List.length_append]
        omega
      have items := @length_intercalate_le ((Jcs.sortMembers members).map Jcs.canonMember)
        ((Jcs.sortMembers members).map (Jcs.canonMember ∘ Prod.map id typed))
        (List.forall₂_map_left_iff.mpr
          (List.forall₂_map_right_iff.mpr (List.forall₂_same.mpr each)))
      omega
  | _ => exact length_canon_tagged _ _

theorem within_tagged {c : Ceilings} {tag : String} {value : JsonValue}
    (h : Within c (tagged tag value)) : Within c value :=
  withinItems_iff.mp h.2 value (by simp)

theorem within_of_typed {c : Ceilings} {value : JsonValue} (h : Within c (typed value)) :
    Within c value := by
  induction value using JsonValue.induction with
  | null => trivial
  | array values ih =>
      rw [typed_array] at h
      obtain ⟨count, items⟩ := within_tagged h
      rw [List.length_map] at count
      refine ⟨count, withinItems_iff.mpr fun v hv => ih v hv ?_⟩
      exact withinItems_iff.mp items _ (List.mem_map_of_mem hv)
  | object members ih =>
      rw [typed_object] at h
      obtain ⟨count, names, all⟩ := within_tagged h
      rw [List.length_map] at count
      rw [List.map_map] at names
      refine ⟨count, names, withinMembers_iff.mpr fun m hm => ?_⟩
      obtain ⟨name, value⟩ := withinMembers_iff.mp all _ (List.mem_map_of_mem hm)
      exact ⟨name, ih m hm value⟩
  | _ => exact within_tagged h

theorem depth_le_typed (value : JsonValue) : value.depth ≤ (typed value).depth := by
  induction value using JsonValue.induction with
  | array values ih =>
      rw [typed_array]
      simp only [tagged, depth, depthItems]
      have items : depthItems values ≤ depthItems (values.map typed) :=
        depthItems_le.mpr fun v hv =>
          (ih v hv).trans (depthItems_le.mp le_rfl _ (List.mem_map_of_mem hv))
      omega
  | object members ih =>
      rw [typed_object]
      simp only [tagged, depth, depthItems]
      have all : depthMembers members ≤ depthMembers (members.map (Prod.map id typed)) :=
        depthMembers_le.mpr fun m hm =>
          (ih m hm).trans
            (depthMembers_le.mp le_rfl _ (List.mem_map_of_mem (f := Prod.map id typed) hm))
      omega
  | _ => exact Nat.zero_le _

theorem nodes_le_typed (value : JsonValue) : value.nodes ≤ (typed value).nodes := by
  induction value using JsonValue.induction with
  | array values ih =>
      rw [typed_array]
      simp only [tagged, nodes, nodesItems, nodesItems_eq, List.map_map]
      have items := List.sum_le_sum (l := values) (f := nodes) (g := nodes ∘ typed) ih
      omega
  | object members ih =>
      rw [typed_object]
      simp only [tagged, nodes, nodesItems, nodesMembers_eq, List.map_map]
      have all := List.sum_le_sum (l := members) (f := fun m => nodes m.2)
        (g := fun m => nodes (typed m.2)) ih
      simp only [Function.comp_def, Prod.map]
      omega
  | _ => simp [typed, tagged, nodes, nodesItems]

/-- The arguments of a request that is written are written themselves. -/
theorem encode_arguments {bounds : Bounds} {operation : Bytes} {arguments : JsonValue} {out : Bytes}
    (h : Jcs.encode (request operation arguments) bounds = some out) :
    Jcs.encode arguments bounds = some (Jcs.canon arguments) := by
  obtain ⟨encodable, nodes, -⟩ := Jcs.encode_eq_some.mp h
  have member : typed arguments ∈ [.string operation, typed arguments] := by simp
  have within := withinItems_iff.mp encodable.within.2 _ member
  have depth := encodable.depth
  have size := Jcs.size_of_array member encodable.size
  have fewer := nodes_le_typed arguments
  simp only [request, JsonValue.nodes, nodesItems] at nodes
  simp only [request, JsonValue.depth, depthItems] at depth
  have lower := depth_le_typed arguments
  refine Jcs.encode_eq_some.mpr ⟨⟨within_of_typed within, by omega, ?_⟩, by omega, rfl⟩
  exact (length_canon_typed arguments).trans size

/-! ## Digests -/

variable {otp : Otp} {bounds : Bounds} {head operation digest : Bytes} {arguments : JsonValue}

/-- The digest is the one of the canonical request. -/
theorem digestRawWith_eq_some :
    digestRawWith otp head operation arguments bounds = some digest ↔
      validOperation operation bounds = true ∧
      Jcs.encode (request operation arguments) bounds =
        some (Jcs.canon (request operation arguments)) ∧
      digest = otp.sha256 (head ++ Jcs.canon (request operation arguments)) := by
  simp only [digestRawWith, digestWith, Bounds.coerce_toLimits, Option.bind_eq_bind,
    Option.bind_some, Option.bind_eq_some_iff, guard_eq_some, exists_const, Option.some.injEq]
  constructor
  · rintro ⟨_, ⟨valid, canonical, written, rfl⟩, decoded⟩
    rw [Base64.decode_encode, Option.some.injEq] at decoded
    obtain ⟨encodable, nodes, rfl⟩ := Jcs.encode_eq_some.mp written
    exact ⟨valid, written, decoded.symm⟩
  · rintro ⟨valid, written, rfl⟩
    exact ⟨_, ⟨valid, _, written, rfl⟩, Base64.decode_encode _⟩

/-- Requests with one canonical text name one operation and alike arguments. -/
theorem alike_of_canon {operation' : Bytes} {arguments' : JsonValue} {bounds' : Bounds}
    {out out' : Bytes}
    (written : Jcs.encode (request operation arguments) bounds = some out)
    (written' : Jcs.encode (request operation' arguments') bounds' = some out')
    (same : Jcs.canon (request operation arguments) = Jcs.canon (request operation' arguments')) :
    operation = operation' ∧ Alike arguments arguments' := by
  have read : ∀ {b : Bounds} {v : JsonValue} {out : Bytes}, Jcs.encode v b = some out →
      Json.decode (Jcs.canon v) Bounds.maximum = some (Jcs.normal v) := by
    intro b v out h
    obtain ⟨encodable, nodes, -⟩ := Jcs.encode_eq_some.mp h
    refine Jcs.decode_canon ?_ (nodes.trans (b.tightens .totalNodes))
    exact ⟨encodable.within.mono ⟨b.tightens _, b.tightens _, b.tightens _, b.tightens _,
      b.tightens _, b.tightens _⟩, encodable.depth.trans (b.tightens .depth),
      encodable.size.trans (b.tightens .jcsBytes)⟩
  have normal := read written
  rw [same, read written', Option.some.injEq, request, request, Jcs.normal_array, Jcs.normal_array,
    JsonValue.array.injEq] at normal
  simp only [List.map_cons, List.map_nil, List.cons.injEq, Jcs.normal, JsonValue.string.injEq,
    and_true] at normal
  exact ⟨normal.1.symm, tidy_of_normal_typed normal.2.symm⟩

/-- The bytes a request digest is computed from. -/
def preimage (head operation : Bytes) (arguments : JsonValue) : Bytes :=
  head ++ Jcs.canon (request operation arguments)

/-- Requests with one digest collide, or name one operation and alike arguments. -/
theorem digestRawWith_bound {operation' : Bytes} {arguments' : JsonValue} {bounds' : Bounds}
    (h : digestRawWith otp head operation arguments bounds = some digest)
    (h' : digestRawWith otp head operation' arguments' bounds' = some digest) :
    otp.Collide (preimage head operation arguments) (preimage head operation' arguments') ∨
      operation = operation' ∧ Alike arguments arguments' := by
  obtain ⟨-, written, rfl⟩ := digestRawWith_eq_some.mp h
  obtain ⟨-, written', same⟩ := digestRawWith_eq_some.mp h'
  rcases otp.eq_or_collide same with equal | collide
  · exact .inr (alike_of_canon written written' (List.append_cancel_left equal))
  · exact .inl collide

end BoundedAuthority.V1.RequestDigest
