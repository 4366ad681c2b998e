import BoundedAuthority.Python.JsonNumber

/-!
# The JSON decoder of the Python verifier

`sdks/python/src/bounded_authority_verifier/json_alg.py`.

The decoder moves a cursor over the bytes; here a function takes the bytes behind the
cursor and returns what it leaves.  `nodes` counts through the whole run and is looked at
only when the value is complete.  Three calls take a byte at least, so three times the
length is fuel enough.
-/

namespace BoundedAuthority.Python

open Wire V1

/-- `_skip_ws` -/
def skipWs (bs : Bytes) : Bytes := bs.dropWhile fun c => (ascii " \t\n\r").contains c

/-- `_expect_lit` -/
def expectLit (lit bs : Bytes) : Option Bytes := do
  guard ¬(lit.length > bs.length)
  guard (bs.take lit.length = lit)
  some (bs.drop lit.length)

/-! ## Strings -/

/-- One digit of `_parse_hex4` -/
def hexDigit (c : UInt8) : Option Nat :=
  if within 0x30 0x39 c then some (c.toNat - 0x30)
  else if within 0x41 0x46 c then some (c.toNat - 0x41 + 10)
  else if within 0x61 0x66 c then some (c.toNat - 0x61 + 10)
  else none

/-- The loop of `_parse_hex4` -/
def hexLoop : (digits : Nat) → (v : Nat) → Bytes → Option (Nat × Bytes)
  | 0, v, bs => some (v, bs)
  | _ + 1, _, [] => none
  | n + 1, v, c :: rest => do
      let d ← hexDigit c
      hexLoop n (v <<< 4 ||| d) rest

/-- `_parse_hex4` -/
def parseHex4 (bs : Bytes) : Option (Nat × Bytes) := hexLoop 4 0 bs

/-- `_encode_utf8` -/
def encodeUtf8 (cp : Nat) : Bytes :=
  let octet := UInt8.ofNat
  if cp < 0x80 then [octet cp]
  else if cp < 0x800 then [octet (0xC0 ||| cp >>> 6), octet (0x80 ||| cp &&& 0x3F)]
  else if cp < 0x10000 then
    [octet (0xE0 ||| cp >>> 12), octet (0x80 ||| cp >>> 6 &&& 0x3F), octet (0x80 ||| cp &&& 0x3F)]
  else
    [octet (0xF0 ||| cp >>> 18), octet (0x80 ||| cp >>> 12 &&& 0x3F),
      octet (0x80 ||| cp >>> 6 &&& 0x3F), octet (0x80 ||| cp &&& 0x3F)]

/-- The escape of a code unit, behind its `u`. -/
def unicodeEscape (bs : Bytes) : Option (Bytes × Bytes) := do
  let (hi, rest) ← parseHex4 bs
  if 0xD800 ≤ hi ∧ hi ≤ 0xDBFF then
    guard (rest.head? = some 0x5C ∧ (rest.drop 1).head? = some 0x75)
    let (lo, rest) ← parseHex4 (rest.drop 2)
    guard (0xDC00 ≤ lo ∧ lo ≤ 0xDFFF)
    some (encodeUtf8 (0x10000 + (hi - 0xD800) <<< 10 + (lo - 0xDC00)), rest)
  else if 0xDC00 ≤ hi ∧ hi ≤ 0xDFFF then none
  else some (encodeUtf8 hi, rest)

/-- The escape of one letter. -/
def letterEscape (e : UInt8) : Option UInt8 :=
  if e = 0x22 then some 0x22
  else if e = 0x5C then some 0x5C
  else if e = 0x2F then some 0x2F
  else if e = 0x62 then some 0x08
  else if e = 0x66 then some 0x0C
  else if e = 0x6E then some 0x0A
  else if e = 0x72 then some 0x0D
  else if e = 0x74 then some 0x09
  else none

/-- What an escape appends. -/
def escape : Bytes → Option (Bytes × Bytes)
  | [] => none
  | e :: rest => if e = 0x75 then unicodeEscape rest else (letterEscape e).map fun c => ([c], rest)

/-- The loop of `_scan_string` -/
def scanLoop : Nat → (out : Bytes) → Bytes → Option (Bytes × Bytes)
  | 0, _, _ => none
  | _ + 1, _, [] => none
  | n + 1, out, c :: rest =>
      if c = 0x22 then some (out, rest)
      else if c = 0x5C then do
        let (chunk, rest) ← escape rest
        scanLoop n (out ++ chunk) rest
      else if c < 0x20 then none
      else scanLoop n (out ++ [c]) rest

/-- `_scan_string` -/
def scanString (bs : Bytes) : Option (Bytes × Bytes) := scanLoop bs.length [] (bs.drop 1)

/-- `_parse_string` -/
def parseString (b : Bounds) (bs : Bytes) : Option (Bytes × Bytes) := do
  let (raw, rest) ← scanString bs
  guard (Utf8.valid raw)
  guard ¬(raw.length > b .stringBytes)
  some (raw, rest)

/-- The name of a member in `_parse_object` -/
def parseName (b : Bounds) (bs : Bytes) : Option (Bytes × Bytes) := do
  guard (bs.head? = some 0x22)
  let (name, rest) ← scanString bs
  guard ¬(name.length > b .keyBytes)
  guard (Utf8.valid name)
  some (name, rest)

/-! ## Values -/

section Values

variable (b : Bounds)

/-- What is parsed, the nodes so far and what is left. -/
abbrev Parsed := JsonValue × Nat × Bytes

/-- The scalars of `_parse_value` -/
def parseScalar (nodes : Nat) (bs : Bytes) (c : UInt8) : Outcome Parsed :=
  if c = 0x22 then expect ((parseString b bs).map fun (raw, rest) => (.string raw, nodes + 1, rest))
  else if c = 0x74 then
    expect ((expectLit (ascii "true") bs).map fun rest => (.boolean true, nodes + 1, rest))
  else if c = 0x66 then
    expect ((expectLit (ascii "false") bs).map fun rest => (.boolean false, nodes + 1, rest))
  else if c = 0x6E then
    expect ((expectLit (ascii "null") bs).map fun rest => (.null, nodes + 1, rest))
  else if c = 0x2D ∨ isDigit c then
    (parseNumber b bs).map fun (v, rest) => (v, nodes + 1, rest)
  else fail

mutual

/-- `_parse_value` -/
def parseValue : Nat → (level nodes : Nat) → Bytes → Outcome Parsed
  | 0, _, _, _ => fail
  | n + 1, level, nodes, bs => do
      let c ← expect bs.head?
      if c = 0x7B then
        require ¬(level ≥ b .depth)
        parseObject n (level + 1) nodes bs
      else if c = 0x5B then
        require ¬(level ≥ b .depth)
        parseArray n (level + 1) nodes bs
      else
        require ¬(level > b .depth)
        parseScalar b nodes bs c
termination_by structural n => n

/-- `_parse_object` -/
def parseObject : Nat → (childLevel nodes : Nat) → Bytes → Outcome Parsed
  | 0, _, _, _ => fail
  | n + 1, childLevel, nodes, bs =>
      let bs := skipWs (bs.drop 1)
      if bs.head? = some 0x7D then pure (.object [], nodes + 1, bs.drop 1)
      else objectLoop n childLevel (nodes + 1) [] bs
termination_by structural n => n

/-- The loop of `_parse_object` -/
def objectLoop : Nat → (childLevel nodes : Nat) → (members : List (Bytes × JsonValue)) → Bytes →
    Outcome Parsed
  | 0, _, _, _, _ => fail
  | n + 1, childLevel, nodes, members, bs => do
      let (name, rest) ← expect (parseName b (skipWs bs))
      require (name ∉ members.map Prod.fst)
      require ((skipWs rest).head? = some 0x3A)
      let (value, nodes, rest) ← parseValue n childLevel nodes (skipWs ((skipWs rest).drop 1))
      require ¬(members.length + 1 > b .objectMembers)
      let rest := skipWs rest
      if rest.head? = some 0x2C then
        objectLoop n childLevel nodes (members ++ [(name, value)]) (rest.drop 1)
      else if rest.head? = some 0x7D then
        pure (.object (members ++ [(name, value)]), nodes, rest.drop 1)
      else fail
termination_by structural n => n

/-- `_parse_array` -/
def parseArray : Nat → (childLevel nodes : Nat) → Bytes → Outcome Parsed
  | 0, _, _, _ => fail
  | n + 1, childLevel, nodes, bs =>
      let bs := skipWs (bs.drop 1)
      if bs.head? = some 0x5D then pure (.array [], nodes + 1, bs.drop 1)
      else arrayLoop n childLevel (nodes + 1) [] bs
termination_by structural n => n

/-- The loop of `_parse_array` -/
def arrayLoop : Nat → (childLevel nodes : Nat) → (items : List JsonValue) → Bytes → Outcome Parsed
  | 0, _, _, _, _ => fail
  | n + 1, childLevel, nodes, items, bs => do
      let (value, nodes, rest) ← parseValue n childLevel nodes (skipWs bs)
      require ¬(items.length + 1 > b .arrayItems)
      let rest := skipWs rest
      if rest.head? = some 0x2C then arrayLoop n childLevel nodes (items ++ [value]) (rest.drop 1)
      else if rest.head? = some 0x5D then pure (.array (items ++ [value]), nodes, rest.drop 1)
      else fail
termination_by structural n => n

end

end Values

/-- `json_decode` -/
def jsonDecode (src : Bytes) (b : Bounds) : Outcome JsonValue := do
  require ¬(src.length > b .jsonBytes)
  let (value, nodes, rest) ← parseValue b (3 * src.length) 0 0 (skipWs src)
  require (skipWs rest = [])
  require ¬(nodes > b .totalNodes)
  pure value

variable {b : Bounds}

/-! ## The error surface -/

theorem closed_parseScalar (nodes : Nat) (bs : Bytes) (c : UInt8) :
    Closed (parseScalar b nodes bs c) := by
  unfold parseScalar
  split
  next => exact closed_expect _
  split
  next => exact closed_expect _
  split
  next => exact closed_expect _
  split
  next => exact closed_expect _
  split
  next => exact (closed_parseNumber bs).map _
  next => exact closed_fail

mutual

theorem closed_parseValue : ∀ (n level nodes : Nat) (bs : Bytes),
    Closed (parseValue b n level nodes bs)
  | 0, _, _, _ => closed_fail
  | n + 1, level, nodes, bs => by
      rw [parseValue]
      refine (closed_expect _).bind fun c _ => ?_
      split
      next => exact (closed_require _).bind fun _ _ => closed_parseObject n (level + 1) nodes bs
      split
      next => exact (closed_require _).bind fun _ _ => closed_parseArray n (level + 1) nodes bs
      next => exact (closed_require _).bind fun _ _ => closed_parseScalar nodes bs c

theorem closed_parseObject : ∀ (n childLevel nodes : Nat) (bs : Bytes),
    Closed (parseObject b n childLevel nodes bs)
  | 0, _, _, _ => closed_fail
  | n + 1, childLevel, nodes, bs => by
      rw [parseObject]
      split
      next => exact closed_ok _
      next => exact closed_objectLoop n childLevel (nodes + 1) [] _

theorem closed_objectLoop : ∀ (n childLevel nodes : Nat) (members : List (Bytes × JsonValue))
    (bs : Bytes), Closed (objectLoop b n childLevel nodes members bs)
  | 0, _, _, _, _ => closed_fail
  | n + 1, childLevel, nodes, members, bs => by
      rw [objectLoop]
      refine (closed_expect _).bind fun (name, rest) _ => ?_
      refine (closed_require _).bind fun _ _ => (closed_require _).bind fun _ _ => ?_
      refine (closed_parseValue n childLevel nodes _).bind fun (value, nodes, rest) _ => ?_
      refine (closed_require _).bind fun _ _ => ?_
      dsimp only
      split
      next => exact closed_objectLoop n childLevel nodes _ _
      split
      next => exact closed_ok _
      next => exact closed_fail

theorem closed_parseArray : ∀ (n childLevel nodes : Nat) (bs : Bytes),
    Closed (parseArray b n childLevel nodes bs)
  | 0, _, _, _ => closed_fail
  | n + 1, childLevel, nodes, bs => by
      rw [parseArray]
      split
      next => exact closed_ok _
      next => exact closed_arrayLoop n childLevel (nodes + 1) [] _

theorem closed_arrayLoop : ∀ (n childLevel nodes : Nat) (items : List JsonValue) (bs : Bytes),
    Closed (arrayLoop b n childLevel nodes items bs)
  | 0, _, _, _, _ => closed_fail
  | n + 1, childLevel, nodes, items, bs => by
      rw [arrayLoop]
      refine (closed_parseValue n childLevel nodes _).bind fun (value, nodes, rest) _ => ?_
      refine (closed_require _).bind fun _ _ => ?_
      dsimp only
      split
      next => exact closed_arrayLoop n childLevel nodes _ _
      split
      next => exact closed_ok _
      next => exact closed_fail

end

/-- The decoder raises nothing but `InvalidError`, whatever the bytes and the bounds: a lexeme
that Python would not turn into a number is refused for its length before. -/
theorem closed_jsonDecode (src : Bytes) (b : Bounds) : Closed (jsonDecode src b) := by
  rw [jsonDecode]
  refine (closed_require _).bind fun _ _ => ?_
  refine (closed_parseValue (3 * src.length) 0 0 _).bind fun (value, nodes, rest) _ => ?_
  refine (closed_require _).bind fun _ _ => ?_
  exact (closed_require _).bind fun _ _ => closed_ok _

/-! ## A number alone -/

set_option maxRecDepth 4096 in
/-- The bytes a number starts with. -/
theorem starts_number {c : UInt8} (h : c = 0x2D ∨ isDigit c = true) :
    c ≠ 0x7B ∧ c ≠ 0x5B ∧ c ≠ 0x22 ∧ c ≠ 0x74 ∧ c ≠ 0x66 ∧ c ≠ 0x6E ∧
      (ascii " \t\n\r").contains c = false := by
  revert h
  exact byte_forall (P := fun c => c = 0x2D ∨ isDigit c = true →
    c ≠ 0x7B ∧ c ≠ 0x5B ∧ c ≠ 0x22 ∧ c ≠ 0x74 ∧ c ≠ 0x66 ∧ c ≠ 0x6E ∧
      (ascii " \t\n\r").contains c = false) (by decide) c

theorem skipWs_render (x : Lexeme) : skipWs x.render = x.render := by
  obtain ⟨c, rest, shape, starts⟩ := head_render_lexeme x
  have solid := (starts_number starts).2.2.2.2.2.2
  rw [shape, skipWs, List.dropWhile_cons_of_neg (by simpa using solid)]

theorem parseValue_lexeme (x : Lexeme) (n nodes : Nat) : parseValue b (n + 1) 0 nodes x.render =
    (parseNumber b x.render).map fun (v, rest) => (v, nodes + 1, rest) := by
  obtain ⟨c, rest, shape, starts⟩ := head_render_lexeme x
  obtain ⟨brace, bracket, quote, t, f, n, _⟩ := starts_number starts
  have head : x.render.head? = some c := by rw [shape, List.head?_cons]
  rw [parseValue, head, expect_some, ok_bind, if_neg brace, if_neg bracket,
    require_of (Nat.not_lt_zero _), ok_bind, parseScalar, if_neg quote, if_neg t, if_neg f,
    if_neg n, if_pos starts]

/-- A document of one lexeme is read exactly when it and its lexeme are not too long and
it is within the module's own maximum. -/
theorem jsonDecode_lexeme (x : Lexeme) {v : JsonValue} : jsonDecode x.render b = .ok v ↔
    x.render.length ≤ b .jsonBytes ∧ x.render.length ≤ b .numberLexemeBytes ∧
      x.AtMost maxFloat ∧ x.value? = some v := by
  obtain ⟨c, tail, shape, _⟩ := head_render_lexeme x
  have fuel : 3 * x.render.length = 3 * tail.length + 2 + 1 := by
    rw [shape, List.length_cons]
    ring
  have whole := Lexeme.parse_render_self x
  have nodes := b.positive .totalNodes
  have number {v' : JsonValue} {rest : Bytes} : parseNumber b x.render = .ok (v', rest) ↔
      x.render.length ≤ b .numberLexemeBytes ∧ x.AtMost maxFloat ∧ x.value? = some v' ∧
        rest = [] := by
    rw [parseNumber_eq_ok]
    constructor
    · rintro ⟨y, read, fits, within, value⟩
      rw [whole] at read
      cases read
      exact ⟨fits, within, value, rfl⟩
    · rintro ⟨fits, within, value, rfl⟩
      exact ⟨x, whole, fits, within, value⟩
  rw [jsonDecode, skipWs_render, fuel, parseValue_lexeme]
  simp only [bind_eq_ok, require_eq_ok, exists_const, map_eq_ok, Prod.exists, Prod.mk.injEq,
    pure_eq_ok, Except.ok.injEq, Nat.not_lt, gt_iff_lt, number]
  constructor
  · rintro ⟨size, _, _, _, ⟨_, _, ⟨fits, within, value, _⟩, rfl, _, _⟩, _, _, rfl⟩
    exact ⟨size, fits, within, value⟩
  · rintro ⟨size, fits, within, value⟩
    exact ⟨size, v, 1, [], ⟨v, [], ⟨fits, within, value, rfl⟩, rfl, rfl, rfl⟩, rfl, nodes, rfl⟩

/-- The limit the bounds set for a lexeme. -/
def magnitude (b : Bounds) (x : Lexeme) : Nat :=
  if x.isFloat then b .floatMagnitude else b .integerMagnitude

/-- The number bound is exact for a lexeme exactly when its magnitude is not between the
limit the bounds set and the profile's own; behind a bound on the document that is shorter
than the lexeme, exactly when its magnitude is over the limit. -/
theorem number_bound_exact (x : Lexeme) (b : Bounds)
    (fits : x.render.length ≤ b .numberLexemeBytes) :
    ((∃ v, jsonDecode x.render b = .ok v) ↔ x.AtMost (magnitude b x)) ↔
      if x.render.length ≤ b .jsonBytes then x.AtMost maxFloat → x.AtMost (magnitude b x)
      else ¬x.AtMost (magnitude b x) := by
  have lower : magnitude b x ≤ maxFloat := by
    unfold magnitude
    split
    next => exact b.tightens .floatMagnitude
    next => exact b.tightens .integerMagnitude
  have weaker : x.AtMost (magnitude b x) → x.AtMost maxFloat := fun within =>
    within.trans (Nat.mul_le_mul_right _ lower)
  have accepted : (∃ v, jsonDecode x.render b = .ok v) ↔
      x.render.length ≤ b .jsonBytes ∧ x.AtMost maxFloat := by
    simp only [jsonDecode_lexeme]
    constructor
    · rintro ⟨_, size, _, within, _⟩
      exact ⟨size, within⟩
    · rintro ⟨size, within⟩
      obtain ⟨v, value⟩ := Option.isSome_iff_exists.mp (value_isSome within)
      exact ⟨v, size, fits, within, value⟩
  rw [accepted]
  split
  next size => exact ⟨fun same within => same.mp ⟨size, within⟩,
      fun exact_ => ⟨fun h => exact_ h.2, fun within => ⟨size, weaker within⟩⟩⟩
  next long => exact ⟨fun same within => long (same.mpr within).1,
      fun beyond => iff_of_false (fun h => long h.1) beyond⟩

/-- The bounds with a tighter limit for integers. -/
def integersUpTo (limit : Nat) (positive : 0 < limit) (tight : limit ≤ 9007199254740991) :
    Bounds where
  limit key := if key = .integerMagnitude then limit else key.maximum
  positive key := by
    split
    next => exact positive
    next => exact key.maximum_pos
  tightens key := by
    split
    next same => subst same; exact tight
    next => exact Nat.le_refl _
  fixed key wide := by
    split
    next same => subst same; cases wide
    next => rfl

/-- The lexeme `2`. -/
def two : Lexeme where
  negative := false
  integer := ⟨ascii "2", by decide +kernel, by decide +kernel⟩
  fraction := none
  exponent := none
  noLeadingZero := by simp [ascii]

/-- Two is accepted under a limit of one. -/
theorem tightened_limit_ignored : ¬∀ (x : Lexeme) (b : Bounds),
    x.render.length ≤ b .numberLexemeBytes →
      ((∃ v, jsonDecode x.render b = .ok v) ↔ x.AtMost (magnitude b x)) := by
  intro exact_
  have same := exact_ two (integersUpTo 1 (by decide) (by decide)) (by decide)
  have accepted := (jsonDecode_lexeme two (b := integersUpTo 1 (by decide) (by decide))
    (v := .integer 2)).mpr ⟨by decide, by decide, by decide, rfl⟩
  exact absurd (same.mp ⟨_, accepted⟩) (by decide)

/-- Under the maximum the bound on two is exact. -/
theorem number_bound_exact_two :
    ((∃ v, jsonDecode two.render .maximum = .ok v) ↔ two.AtMost (magnitude .maximum two)) :=
  (number_bound_exact two .maximum (by decide)).mpr (by decide)

end BoundedAuthority.Python
