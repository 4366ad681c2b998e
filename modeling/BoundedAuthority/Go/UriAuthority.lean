import BoundedAuthority.Go.UriLiteral

/-!
# Authorities in Go

The authority of a target URI is a host and perhaps a port (`Authority`).  The code reads
every such authority, and as it should.  It also reads three kinds of texts that are none:
a bracketed literal with an empty port behind it, and the two kinds of texts that
`normalizeIPv6` takes for addresses (`authority_exact_iff`).
-/

namespace BoundedAuthority.Go.Uri

open Wire Percent Ipv6
open V1 (Bounds)
open V1.Uri (dottedDigits regNameByte regNameRules)

/-! ## The grammar -/

/-- A port: digits for a number of sixteen bits other than zero. -/
structure PortDigits (digits : Bytes) : Prop where
  nonempty : digits ≠ []
  all : ∀ b ∈ digits, isDigit b = true
  positive : 1 ≤ Decimal.value digits
  small : Decimal.value digits ≤ 65535

/-- How a port is written: not at all if it is the one of the scheme, and else without
leading zeros. -/
def portText (port : Nat) : Bytes := if port = 443 then [] else Decimal.ofNat port

/-- A host and how it is returned: a literal in brackets, or a registered name, which is
an IPv4 address if it consists of digits and dots once its escapes are decoded. -/
inductive Host : (text host : Bytes) → Prop
  | bracketed {lit norm : Bytes} (h : Literal lit norm) :
      Host (0x5B :: (lit ++ [0x5D])) (0x5B :: (norm ++ [0x5D]))
  | name {text norm : Bytes} (some_ : text ≠ [])
      (h : Percent.normalize regNameByte lower text = some norm)
      (ipv4 : dottedDigits norm = true → Ipv4Address norm) : Host text norm

/-- `host [ ":" 1*DIGIT ]`, with the host and the port of the result. -/
inductive Authority : (auth host port : Bytes) → Prop
  | bare {text host : Bytes} (h : Host text host) : Authority text host []
  | port {text host digits : Bytes} (h : Host text host) (hPort : PortDigits digits) :
      Authority (text ++ 0x3A :: digits) host (portText (Decimal.value digits))

/-! ## Ports -/

set_option maxRecDepth 4096 in
theorem isDigit_iff_range (c : UInt8) : (decide (c < 0x30) || decide (c > 0x39)) = !isDigit c :=
  byte_forall (P := fun c => (decide (c < 0x30) || decide (c > 0x39)) = !isDigit c) (by decide) c

/-- The loop returns the digits without the zeros in front. -/
theorem portDigits_eq (started : Bool) (port : Bytes) : portDigits started port =
    if port.all isDigit then some (if started then port else port.dropWhile fun c => c == 0x30)
    else none := by
  induction port generalizing started with
  | nil => cases started <;> rfl
  | cons c rest ih =>
      rw [portDigits, isDigit_iff_range, List.all_cons]
      cases isDigit c with
      | false => rfl
      | true =>
          have digit : ¬(!true) = true := Bool.false_ne_true
          rw [if_neg digit, Bool.true_and]
          simp only [ih]
          cases rest.all isDigit with
          | false => rfl
          | true =>
              cases started with
              | true => rfl
              | false =>
                  by_cases zero : c = 0x30
                  · simp [zero]
                  · simp [zero]

theorem normalizePort_iff {port : Bytes} (some_ : port ≠ []) (written : Bytes) :
    normalizePort port = some written ↔
      PortDigits port ∧ written = portText (Decimal.value port) := by
  have text : (portText (Decimal.value port) = written) ↔ written = portText (Decimal.value port) :=
    eq_comm
  rw [normalizePort, if_neg some_, portDigits_eq]
  by_cases all : port.all isDigit = true
  · have digits := List.all_eq_true.mp all
    have value := Decimal.value_dropWhile_zero port
    have kept : ∀ b ∈ port.dropWhile fun c => c == 0x30, isDigit b = true := fun b member =>
      digits b (List.dropWhile_subset _ member)
    rw [if_pos all, if_neg Bool.false_ne_true, ← text]
    simp only [Option.bind_eq_bind, Option.bind_some, Option.bind_eq_some_iff, guard_eq_some,
      exists_const, labelValue_eq kept, value, List.length_eq_zero_iff]
    by_cases zero : Decimal.value port = 0
    · constructor
      · rintro ⟨_, _, range, _⟩
        exact (range (.inl (by omega))).elim
      · rintro ⟨h, _⟩
        exact absurd h.positive (by omega)
    · have stripped := Decimal.dropWhile_zero_eq digits zero
      have written' : (if Decimal.value port = 443 then some []
          else some (port.dropWhile fun c => c == 0x30)) =
          some (portText (Decimal.value port)) := by
        rw [stripped, portText]
        split <;> rfl
      rw [written', Option.some.injEq, stripped]
      constructor
      · rintro ⟨_, _, range, same⟩
        exact ⟨⟨some_, digits, by omega, by omega⟩, same⟩
      · rintro ⟨h, same⟩
        have small := h.small
        have short := Decimal.length_ofNat_le (k := 5) (by omega : Decimal.value port < 10 ^ 5)
          (by decide)
        exact ⟨Decimal.ofNat_ne_nil _, by omega, by omega, same⟩
  · rw [if_neg all]
    constructor
    · intro h
      cases h
    · rintro ⟨h, _⟩
      exact (all (List.all_eq_true.mpr h.all)).elim

theorem normalizePort_invalid : normalizePort invalidPort = none := by decide

/-! ## Hosts -/

theorem normalizeHost_bracketed {lit host : Bytes} :
    normalizeHost (0x5B :: (lit ++ [0x5D])) = some host ↔
    lit ≠ [] ∧ ∃ norm, normalizeLiteral lit = some norm ∧ host = 0x5B :: (norm ++ [0x5D]) := by
  have last : cutLast 0x5D (0x5B :: (lit ++ [0x5D])) = some (0x5B :: lit, []) :=
    cutLast_append (0x5B :: lit) List.not_mem_nil
  rw [normalizeHost, if_pos List.head?_cons, last]
  simp only [Option.bind_eq_bind, Option.bind_some, Option.bind_eq_some_iff, guard_eq_some,
    exists_const, true_and, Option.some.injEq]
  exact and_congr_right fun _ => exists_congr fun norm => and_congr_right fun _ => eq_comm

theorem normalizeHost_unclosed {host : Bytes} (opened : host.head? = some 0x5B)
    (free : 0x5D ∉ host) :
    normalizeHost host = none := by
  rw [normalizeHost, if_pos opened, cutLast_eq_none.mpr free]
  rfl

theorem isNumericDotted_eq (host : Bytes) : isNumericDotted host = dottedDigits host := by
  have each : ∀ c : UInt8, (!(c != 0x2E && (decide (c < 0x30) || decide (c > 0x39)))) =
      (isDigit c || c == 0x2E) := by
    intro c
    rw [isDigit_iff_range, bne]
    cases isDigit c <;> cases c == 0x2E <;> rfl
  have dot : contains host (ascii ".") = host.contains 0x2E := by
    rw [Bool.eq_iff_iff, List.contains_iff_mem]
    exact contains_iff
  simp only [isNumericDotted, dottedDigits, dot, each, Bool.and_comm]

set_option maxRecDepth 4096 in
theorem lowerByte_eq : lowerByte = lower := by
  funext c
  exact byte_forall (P := fun c => lowerByte c = lower c) (by decide) c

theorem normalizeHost_name {text host : Bytes} (name : text.head? ≠ some 0x5B) :
    normalizeHost text = some host ↔ text ≠ [] ∧
      Percent.normalize regNameByte lower text = some host ∧
        (dottedDigits host = true → Ipv4Address host) := by
  have escapes : normalizeEscapes (fun c => isUnreserved c || isSubDelim c) lowerByte text =
      Percent.normalize regNameByte lower text := by
    rw [normalizeEscapes_eq, lowerByte_eq]
    rfl
  rw [normalizeHost, if_neg name, escapes]
  simp only [Option.bind_eq_bind, Option.bind_eq_some_iff, guard_eq_some, exists_const,
    isNumericDotted_eq]
  refine and_congr_right fun _ => ?_
  constructor
  · rintro ⟨norm, read, h⟩
    split at h
    next dotted =>
      obtain ⟨valid, same⟩ := guard_bind_eq_some.mp h
      cases same
      have bytes : ∀ b ∈ host, isDigit b = true ∨ b = 0x2E := by
        intro b member
        have all := (Bool.and_eq_true_iff.mp dotted).1
        simpa using List.all_eq_true.mp all b member
      exact ⟨read, fun _ => (validIPv4_iff bytes).mp valid⟩
    next plain =>
      cases h
      exact ⟨read, fun dotted => (plain dotted).elim⟩
  · rintro ⟨read, ipv4⟩
    refine ⟨host, read, ?_⟩
    split
    next dotted => exact guard_bind_eq_some.mpr ⟨(dotted_of_address (ipv4 dotted)).valid, rfl⟩
    next => rfl

/-- No byte outside the registered names and the escapes is in one. -/
theorem not_mem_name {text norm : Bytes} (h : Percent.normalize regNameByte lower text = some norm)
    {c : UInt8} (refused : regNameByte c = false) (percent : c ≠ 0x25) (noHex : isHex c = false) :
    c ∉ text := by
  intro member
  rcases mem_of_normalize h c member with plain | same | hex
  · rw [refused] at plain
    cases plain
  · exact percent same
  · rw [noHex] at hex
    cases hex

/-- The bytes of a literal. -/
theorem Literal.not_mem {lit norm : Bytes} (h : Literal lit norm) {c : UInt8}
    (refused : (isUnreserved c || (isSubDelim c || c == 0x3A)) = false) : c ∉ lit := by
  have colon : c ≠ 0x3A := by
    rintro rfl
    exact absurd refused (by decide)
  have unreserved : isUnreserved c = false := (Bool.or_eq_false_iff.mp refused).1
  have noHex : ∀ b, isHex b = true → b ≠ c := by
    rintro b hex rfl
    rw [isUnreserved_of_isHex hex] at unreserved
    cases unreserved
  have dot : c ≠ 0x2E := by
    rintro rfl
    exact absurd unreserved (by decide)
  intro member
  cases h with
  | address h _ =>
      rcases h.bytes c member with hex | same | same
      · exact noHex c hex rfl
      · exact colon same
      · exact dot same
  | future h =>
      cases h with
      | @mk v version address letter _ hex _ plain =>
          have letters : isUnreserved 0x76 = true ∧ isUnreserved 0x56 = true := by decide
          rcases List.mem_cons.mp member with rfl | later
          · rcases letter with rfl | rfl
            · exact absurd unreserved (by rw [letters.1]; decide)
            · exact absurd unreserved (by rw [letters.2]; decide)
          · rcases List.mem_append.mp later with front | behind
            · exact noHex c (hex c front) rfl
            · rcases List.mem_cons.mp behind with same | last
              · exact dot same
              · rw [plain c last] at refused
                cases refused

theorem Literal.closeFree {lit norm : Bytes} (h : Literal lit norm) : 0x5D ∉ lit :=
  h.not_mem (by decide)

/-! ## Splitting -/

/-- The port behind a literal: none, or what follows a colon. -/
def suffixPort (suffix : Bytes) : Bytes :=
  match suffix with
  | [] => []
  | c :: rest => if c = 0x3A then rest else invalidPort

theorem splitHostPort_bracketed {lit : Bytes} (free : 0x5D ∉ lit) (suffix : Bytes) :
    splitHostPort (0x5B :: (lit ++ 0x5D :: suffix)) =
      (0x5B :: (lit ++ [0x5D]), suffixPort suffix) := by
  have free' : 0x5D ∉ 0x5B :: lit := by
    rw [List.mem_cons, not_or]
    exact ⟨by decide, free⟩
  have found : cut (ascii "]") (0x5B :: (lit ++ 0x5D :: suffix)) = some (0x5B :: lit, suffix) :=
    cut_singleton_append suffix free'
  rw [splitHostPort, if_pos List.head?_cons, found]
  cases suffix with
  | nil => rfl
  | cons c rest =>
      by_cases colon : c = 0x3A
      · simp [suffixPort, colon, ascii]
      · simp [suffixPort, colon, ascii]

/-- A text in brackets is split at the first closing one. -/
theorem exists_bracketed {auth : Bytes} (opened : auth.head? = some 0x5B) (closed : 0x5D ∈ auth) :
    ∃ lit suffix, auth = 0x5B :: (lit ++ 0x5D :: suffix) ∧ 0x5D ∉ lit := by
  cases auth with
  | nil => cases opened
  | cons b rest =>
      obtain rfl := Option.some.inj opened
      have inside : (0x5D : UInt8) ∈ rest := by
        rcases List.mem_cons.mp closed with same | later
        · exact absurd same (by decide)
        · exact later
      obtain ⟨lit, suffix, same, free⟩ := List.eq_append_cons_of_mem inside
      exact ⟨lit, suffix, by rw [same], free⟩

theorem bracketed_inj {lit lit' suffix suffix' : Bytes} (free : 0x5D ∉ lit) (free' : 0x5D ∉ lit')
    (same : lit ++ 0x5D :: suffix = lit' ++ 0x5D :: suffix') : lit = lit' ∧ suffix = suffix' := by
  have parts := cut_singleton_append suffix free
  rw [same, cut_singleton_append suffix' free'] at parts
  cases parts
  exact ⟨rfl, rfl⟩

/-! ## Authorities -/

theorem normalizeAuthority_iff {auth host port : Bytes} :
    normalizeAuthority auth = some (host, port) ↔
    auth ≠ [] ∧ 0x40 ∉ auth ∧ normalizeHost (splitHostPort auth).1 = some host ∧
      normalizePort (splitHostPort auth).2 = some port := by
  have userinfo : contains auth (ascii "@") = false ↔ 0x40 ∉ auth := by
    rw [← Bool.not_eq_true]
    exact not_congr contains_iff
  simp only [normalizeAuthority, Option.bind_eq_bind, Option.bind_eq_some_iff, guard_eq_some,
    exists_const, userinfo, Option.some.injEq, Prod.mk.injEq]
  refine and_congr_right fun _ => and_congr_right fun _ => ?_
  constructor
  · rintro ⟨host', hHost, port', hPort, same, same'⟩
    exact ⟨same ▸ hHost, same' ▸ hPort⟩
  · rintro ⟨hHost, hPort⟩
    exact ⟨host, hHost, port, hPort, rfl, rfl⟩

/-- What may follow a literal. -/
inductive Suffix : (suffix port : Bytes) → Prop
  | none : Suffix [] []
  | port {digits : Bytes} (h : PortDigits digits) :
      Suffix (0x3A :: digits) (portText (Decimal.value digits))

/-- The code also takes a colon with nothing behind it. -/
theorem normalizePort_suffix (suffix port : Bytes) : normalizePort (suffixPort suffix) = some port ↔
    Suffix suffix port ∨ suffix = [0x3A] ∧ port = [] := by
  have empty : normalizePort [] = some port ↔ port = [] := by
    rw [normalizePort, if_pos rfl, Option.some.injEq]
    exact eq_comm
  match suffix with
  | [] =>
      rw [suffixPort, empty]
      constructor
      · rintro rfl
        exact .inl .none
      · intro h
        rcases h with h | ⟨h, _⟩
        · cases h
          rfl
        · cases h
  | [c] =>
      by_cases colon : c = 0x3A
      · rw [suffixPort, if_pos colon, colon, empty]
        constructor
        · exact fun h => .inr ⟨rfl, h⟩
        · intro h
          rcases h with h | ⟨_, h⟩
          · cases h with
            | port h => exact (h.nonempty rfl).elim
          · exact h
      · rw [suffixPort, if_neg colon, normalizePort_invalid]
        constructor
        · intro h
          cases h
        · intro h
          rcases h with h | ⟨h, _⟩
          · cases h
            exact (colon rfl).elim
          · exact (colon (List.cons.inj h).1).elim
  | c :: d :: rest =>
      have some_ : d :: rest ≠ [] := List.cons_ne_nil _ _
      by_cases colon : c = 0x3A
      · rw [suffixPort, if_pos colon, colon, normalizePort_iff some_]
        constructor
        · rintro ⟨h, same⟩
          rw [same]
          exact .inl (.port h)
        · intro h
          rcases h with h | ⟨h, _⟩
          · cases h with
            | port h => exact ⟨h, rfl⟩
          · cases h
      · rw [suffixPort, if_neg colon, normalizePort_invalid]
        constructor
        · intro h
          cases h
        · intro h
          rcases h with h | ⟨h, _⟩
          · cases h
            exact (colon rfl).elim
          · cases h

theorem normalizeAuthority_bracketed {lit suffix : Bytes} (free : 0x5D ∉ lit) {host port : Bytes} :
    normalizeAuthority (0x5B :: (lit ++ 0x5D :: suffix)) = some (host, port) ↔
      0x40 ∉ lit ++ 0x5D :: suffix ∧ lit ≠ [] ∧
        (∃ norm, normalizeLiteral lit = some norm ∧ host = 0x5B :: (norm ++ [0x5D])) ∧
          (Suffix suffix port ∨ suffix = [0x3A] ∧ port = []) := by
  have opened : (0x40 : UInt8) ≠ 0x5B := by decide
  rw [normalizeAuthority_iff, splitHostPort_bracketed free, normalizeHost_bracketed,
    normalizePort_suffix, List.mem_cons, not_or]
  simp only [ne_eq, reduceCtorEq, not_false_eq_true, opened, true_and, and_assoc]

theorem authority_bracketed {lit suffix : Bytes} (free : 0x5D ∉ lit) {host port : Bytes} :
    Authority (0x5B :: (lit ++ 0x5D :: suffix)) host port ↔
      (∃ norm, Literal lit norm ∧ host = 0x5B :: (norm ++ [0x5D])) ∧ Suffix suffix port := by
  have noName : ∀ {text norm rest : Bytes}, text ++ rest = 0x5B :: (lit ++ 0x5D :: suffix) →
      text ≠ [] → Percent.normalize regNameByte lower text ≠ some norm := by
    intro text norm rest same some_ h
    obtain ⟨b, later, rfl⟩ := List.exists_cons_of_ne_nil some_
    obtain rfl : b = 0x5B := (List.cons.inj same).1
    exact not_mem_name h (by decide) (by decide) (by decide) List.mem_cons_self
  constructor
  · intro h
    generalize whole : 0x5B :: (lit ++ 0x5D :: suffix) = auth at h
    cases h with
    | bare h =>
        cases h with
        | bracketed h =>
            obtain ⟨rfl, rfl⟩ := bracketed_inj free h.closeFree (List.cons.inj whole).2
            exact ⟨⟨_, h, rfl⟩, .none⟩
        | name some_ h _ => exact (noName (by rw [List.append_nil, whole]) some_ h).elim
    | @port text _ digits h hPort =>
        cases h with
        | @bracketed lit' norm h =>
            have tail : lit ++ 0x5D :: suffix = lit' ++ [0x5D] ++ 0x3A :: digits :=
              (List.cons.inj whole).2
            rw [List.append_assoc, List.singleton_append] at tail
            obtain ⟨rfl, rfl⟩ := bracketed_inj free h.closeFree tail
            exact ⟨⟨_, h, rfl⟩, .port hPort⟩
        | name some_ h _ => exact (noName whole.symm some_ h).elim
  · rintro ⟨⟨norm, h, same⟩, hSuffix⟩
    rw [same]
    cases hSuffix with
    | none => exact .bare (.bracketed h)
    | port hPort =>
        have whole := Authority.port (.bracketed h) hPort
        simpa using whole

theorem suffix_free {suffix port : Bytes} (h : Suffix suffix port) : 0x40 ∉ suffix := by
  cases h with
  | none => exact List.not_mem_nil
  | port h =>
      rw [List.mem_cons, not_or]
      refine ⟨by decide, fun member => ?_⟩
      exact absurd (h.all _ member) (by decide)

theorem not_suffix_colon {port : Bytes} : ¬Suffix [0x3A] port := by
  intro h
  generalize colon : ([0x3A] : Bytes) = suffix at h
  cases h with
  | none => cases colon
  | port h =>
      cases colon
      exact h.nonempty rfl

/-- A name holds no colon. -/
theorem Host.colonFree {text host : Bytes} (h : Host text host) (name : text.head? ≠ some 0x5B) :
    0x3A ∉ text := by
  cases h with
  | bracketed h => exact (name List.head?_cons).elim
  | name some_ h _ => exact not_mem_name h (by decide) (by decide) (by decide)

theorem Host.atFree {text host : Bytes} (h : Host text host) : 0x40 ∉ text := by
  cases h with
  | bracketed h =>
      have free := h.not_mem (c := 0x40) (by decide)
      rw [List.mem_cons, List.mem_append, List.mem_singleton, not_or, not_or]
      exact ⟨by decide, free, by decide⟩
  | name some_ h _ => exact not_mem_name h (by decide) (by decide) (by decide)

theorem Host.ne_nil {text host : Bytes} (h : Host text host) : text ≠ [] := by
  cases h with
  | bracketed h => exact List.cons_ne_nil _ _
  | name some_ h _ => exact some_

theorem normalizeHost_name_iff {text host : Bytes} (name : text.head? ≠ some 0x5B) :
    normalizeHost text = some host ↔ Host text host := by
  rw [normalizeHost_name name]
  constructor
  · rintro ⟨some_, h, ipv4⟩
    exact .name some_ h ipv4
  · intro h
    cases h with
    | bracketed h => exact (name List.head?_cons).elim
    | name some_ h ipv4 => exact ⟨some_, h, ipv4⟩

theorem head_append {text rest : Bytes} (some_ : text ≠ []) :
    (text ++ rest).head? = text.head? := by
  obtain ⟨b, text, rfl⟩ := List.exists_cons_of_ne_nil some_
  rfl

/-- A name is read exactly as the grammar has it. -/
theorem normalizeAuthority_name {auth : Bytes} (name : auth.head? ≠ some 0x5B) {host port : Bytes} :
    normalizeAuthority auth = some (host, port) ↔ Authority auth host port := by
  rw [normalizeAuthority_iff, splitHostPort, if_neg name]
  constructor
  · rintro ⟨some_, _, hHost, hPort⟩
    cases found : cutLast 0x3A auth with
    | none =>
        rw [found] at hHost hPort
        rw [normalizePort, if_pos rfl] at hPort
        cases hPort
        exact .bare ((normalizeHost_name_iff name).mp hHost)
    | some around =>
        obtain ⟨before, after⟩ := around
        rw [found] at hHost hPort
        by_cases empty : after = []
        · simp only [if_pos empty, normalizePort_invalid] at hPort
          cases hPort
        · simp only [if_neg empty] at hHost hPort
          obtain ⟨digits, rfl⟩ := (normalizePort_iff empty port).mp hPort
          have whole : auth = before ++ 0x3A :: after := by
            obtain ⟨⟨front, back⟩, parts, same⟩ := Option.map_eq_some_iff.mp found
            cases same
            have reversed := congrArg List.reverse (cut_eq_some parts)
            simpa using reversed
          have front : before.head? ≠ some 0x5B := by
            intro opened
            cases before with
            | nil => cases opened
            | cons b before =>
                rw [whole] at name
                exact name opened
          rw [whole]
          exact .port ((normalizeHost_name_iff front).mp hHost) digits
  · intro h
    cases h with
    | bare h =>
        have none := cutLast_eq_none.mpr (h.colonFree name)
        rw [none]
        exact ⟨h.ne_nil, h.atFree, (normalizeHost_name_iff name).mpr h, if_pos rfl⟩
    | @port text _ digits h hPort =>
        have free : 0x3A ∉ digits := fun member => absurd (hPort.all _ member) (by decide)
        have front : text.head? ≠ some 0x5B := by
          rwa [head_append h.ne_nil] at name
        rw [cutLast_append text free]
        simp only [if_neg hPort.nonempty]
        refine ⟨List.append_ne_nil_of_left_ne_nil h.ne_nil _, ?_,
          (normalizeHost_name_iff front).mpr h, (normalizePort_iff hPort.nonempty _).mpr
          ⟨hPort, rfl⟩⟩
        rw [List.mem_append, List.mem_cons, not_or, not_or]
        exact ⟨h.atFree, by decide, fun member => absurd (hPort.all _ member) (by decide)⟩

/-- Nothing is read where a bracket is not closed. -/
theorem normalizeAuthority_unclosed {auth : Bytes} (opened : auth.head? = some 0x5B)
    (free : 0x5D ∉ auth) : normalizeAuthority auth = none := by
  rw [Option.eq_none_iff_forall_ne_some]
  rintro ⟨host, port⟩ h
  obtain ⟨-, -, hHost, -⟩ := normalizeAuthority_iff.mp h
  have single : cut (ascii "]") auth = none := cut_singleton_eq_none.mpr free
  rw [splitHostPort, if_pos opened, single, normalizeHost_unclosed opened free] at hHost
  cases hHost

theorem not_authority_unclosed {auth host port : Bytes} (opened : auth.head? = some 0x5B)
    (free : 0x5D ∉ auth) : ¬Authority auth host port := by
  have noHost : ∀ {text rest : Bytes}, auth = text ++ rest → ¬Host text host := by
    intro text rest whole h
    cases h with
    | bracketed h =>
        rw [whole] at free
        simp at free
    | name some_ h _ =>
        obtain ⟨b, later, rfl⟩ := List.exists_cons_of_ne_nil some_
        rw [whole] at opened
        obtain rfl : b = 0x5B := Option.some.inj opened
        exact not_mem_name h (by decide) (by decide) (by decide) List.mem_cons_self
  intro h
  cases h with
  | bare h => exact noHost (List.append_nil auth).symm h
  | port h hPort => exact noHost rfl h

/-! ## The authorities that are none -/

/-- A literal with nothing behind the colon of its port. -/
def EmptyPort (auth : Bytes) : Prop :=
  ∃ lit norm, auth = 0x5B :: (lit ++ [0x5D, 0x3A]) ∧ Literal lit norm

/-- A literal that is misread, up to the first closing bracket, with or without a port,
and without userinfo. -/
def MisreadHost (auth : Bytes) : Prop :=
  ∃ lit suffix port, auth = 0x5B :: (lit ++ 0x5D :: suffix) ∧ 0x5D ∉ lit ∧ 0x40 ∉ lit ∧
    MisreadLiteral lit ∧ (Suffix suffix port ∨ suffix = [0x3A])

/-- Exactly the authorities are read, each as it should, but for these kinds. -/
theorem normalizeAuthority_exact_iff (auth : Bytes) :
    (∀ host port, normalizeAuthority auth = some (host, port) ↔ Authority auth host port) ↔
      ¬(EmptyPort auth ∨ MisreadHost auth) := by
  have colonAt : ∀ {suffix port : Bytes}, Suffix suffix port ∨ suffix = [0x3A] → 0x40 ∉ suffix := by
    intro suffix port h
    rcases h with h | rfl
    · exact suffix_free h
    · decide
  constructor
  · intro exactly h
    rcases h with ⟨lit, norm, same, h⟩ | ⟨lit, suffix, port, same, free, at_, h, tail⟩
    · -- the empty port is read, and no suffix of the grammar
      have some_ := h.normalize
      have noAt : 0x40 ∉ lit ++ 0x5D :: [0x3A] := by
        rw [List.mem_append, not_or]
        exact ⟨h.not_mem (by decide), by decide⟩
      have read : normalizeAuthority auth = some (0x5B :: (norm ++ [0x5D]), []) := by
        rw [same]
        exact (normalizeAuthority_bracketed h.closeFree).mpr
          ⟨noAt, some_.1, ⟨norm, some_.2, rfl⟩, .inr ⟨rfl, rfl⟩⟩
      have wrong := (exactly _ _).mp read
      rw [same] at wrong
      obtain ⟨-, empty⟩ := (authority_bracketed h.closeFree).mp wrong
      exact not_suffix_colon empty
    · obtain ⟨some_, norm, read⟩ := h.normalize
      have noAt : 0x40 ∉ lit ++ 0x5D :: suffix := by
        rw [List.mem_append, List.mem_cons, not_or, not_or]
        exact ⟨at_, by decide, colonAt tail⟩
      have tail' : ∃ port, Suffix suffix port ∨ suffix = [0x3A] ∧ port = [] := by
        rcases tail with tail | colon
        · exact ⟨port, .inl tail⟩
        · exact ⟨[], .inr ⟨colon, rfl⟩⟩
      obtain ⟨port', tail'⟩ := tail'
      have read' : normalizeAuthority auth = some (0x5B :: (norm ++ [0x5D]), port') := by
        rw [same]
        exact (normalizeAuthority_bracketed free).mpr ⟨noAt, some_, ⟨norm, read, rfl⟩, tail'⟩
      have wrong := (exactly _ _).mp read'
      rw [same] at wrong
      obtain ⟨⟨norm', proper, -⟩, -⟩ := (authority_bracketed free).mp wrong
      exact h.not_literal proper
  · intro proper host port
    by_cases opened : auth.head? = some 0x5B
    · by_cases closed : 0x5D ∈ auth
      · obtain ⟨lit, suffix, same, free⟩ := exists_bracketed opened closed
        rw [same, normalizeAuthority_bracketed free, authority_bracketed free]
        constructor
        · rintro ⟨noAt, some_, ⟨norm, read, written⟩, tail⟩
          rw [List.mem_append, not_or] at noAt
          rcases normalizeLiteral_cases read with h | misread
          · rcases tail with tail | ⟨colon, -⟩
            · exact ⟨⟨norm, h, written⟩, tail⟩
            · exact (proper (.inl ⟨lit, norm, by rw [same, colon], h⟩)).elim
          · exact (proper (.inr ⟨lit, suffix, port, same, free, noAt.1, misread,
              tail.imp id And.left⟩)).elim
        · rintro ⟨⟨norm, h, written⟩, tail⟩
          have read := h.normalize
          refine ⟨?_, read.1, ⟨norm, read.2, written⟩, .inl tail⟩
          rw [List.mem_append, List.mem_cons, not_or, not_or]
          exact ⟨h.not_mem (by decide), by decide, suffix_free tail⟩
      · rw [normalizeAuthority_unclosed opened closed]
        constructor
        · intro h
          cases h
        · intro h
          exact (not_authority_unclosed opened closed h).elim
    · exact normalizeAuthority_name opened

example : normalizeAuthority (ascii "[1.2.3.4::1]") = some (ascii "[102:304::1]", []) ∧
    normalizeAuthority (ascii "[::!.!.!.!]") = some (ascii "[::!.!.!.!]", []) := by
  decide +kernel

/-! ## Target URIs -/

/-- The authority and the path of a target URI. -/
structure Target (b : Bounds) (uri auth path : Bytes) : Prop where
  short : uri.length ≤ b .uriBytes
  visible : ∀ c ∈ uri, within 0x21 0x7E c = true
  scheme : ∃ scheme, uri = scheme ++ (auth ++ path) ∧ scheme.map lower = ascii "https://"
  plain : 0x3F ∉ uri ∧ 0x23 ∉ uri
  slashless : 0x2F ∉ auth
  absolute : Segments.Absolute path

theorem splitPath_iff {rest auth path : Bytes} : splitPath rest = (auth, path) ↔
    rest = auth ++ path ∧ 0x2F ∉ auth ∧ Segments.Absolute path := by
  constructor
  · intro h
    rw [splitPath] at h
    split at h
    next before after found =>
      cases h
      refine ⟨?_, cut_singleton_notMem found, fun b head => (Option.some.inj head).symm⟩
      rw [cut_eq_some found, List.append_assoc]
      rfl
    next none =>
      cases h
      exact ⟨(List.append_nil rest).symm, cut_singleton_eq_none.mp none,
        fun b head => by cases head⟩
  · rintro ⟨same, free, absolute⟩
    rw [same]
    cases path with
    | nil =>
        have none : cut (ascii "/") auth = none := cut_singleton_eq_none.mpr free
        rw [List.append_nil, splitPath, none]
    | cons b path =>
        obtain rfl := absolute b rfl
        have found : cut (ascii "/") (auth ++ 0x2F :: path) = some (auth, path) :=
          cut_singleton_append path free
        rw [splitPath, found]

set_option maxRecDepth 4096 in
/-- What is checked before the authority, and where it is found. -/
theorem target_iff {b : Bounds} {uri auth path : Bytes} : Target b uri auth path ↔
    ¬(uri.length = 0 ∨ uri.length > b .uriBytes) ∧
      (uri.all fun c => !(decide (c < 0x21) || decide (c > 0x7E))) = true ∧
        ¬(uri.length < 8 ∨ (uri.take 8).map lower ≠ ascii "https://") ∧
          ¬(contains uri (ascii "?") = true ∨ contains uri (ascii "#") = true) ∧
            splitPath (uri.drop 8) = (auth, path) := by
  have each : ∀ c : UInt8, (!(decide (c < 0x21) || decide (c > 0x7E))) = within 0x21 0x7E c :=
    byte_forall (P := fun c => (!(decide (c < 0x21) || decide (c > 0x7E))) = within 0x21 0x7E c)
      (by decide)
  have query : contains uri (ascii "?") = true ↔ 0x3F ∈ uri := contains_iff
  have fragment : contains uri (ascii "#") = true ↔ 0x23 ∈ uri := contains_iff
  simp only [each, List.all_eq_true, query, fragment, splitPath_iff, not_or, not_not, ne_eq]
  constructor
  · intro h
    obtain ⟨scheme, whole, lowered⟩ := h.scheme
    have eight : scheme.length = 8 := by
      have length := congrArg List.length lowered
      rwa [List.length_map] at length
    have front : uri.take 8 = scheme := by rw [whole, List.take_left' eight]
    have behind : uri.drop 8 = auth ++ path := by rw [whole, List.drop_left' eight]
    have size : 8 ≤ uri.length := by
      rw [whole, List.length_append]
      omega
    have short := h.short
    exact ⟨⟨by omega, by omega⟩, h.visible, ⟨by omega, front ▸ lowered⟩, h.plain,
      behind, h.slashless, h.absolute⟩
  · rintro ⟨⟨_, short⟩, visible, ⟨_, lowered⟩, plain, behind, slashless, absolute⟩
    exact ⟨by omega, visible, ⟨uri.take 8, by rw [← behind, List.take_append_drop], lowered⟩, plain,
      slashless, absolute⟩

/-- A URI is returned when its authority and its path are, and the result is no longer
than the bound. -/
theorem uriNormalize_iff (uri : Bytes) (bounds : BoundsPointer) (out : Bytes) :
    uriNormalize uri bounds = some out ↔ ∃ b auth path host port normPath,
      resolveBounds bounds = some b ∧ Target b uri auth path ∧
        normalizeAuthority auth = some (host, port) ∧ normalizePath path = some normPath ∧
          out = ascii "https://" ++ host ++ (if port ≠ [] then ascii ":" ++ port else []) ++
            normPath ∧
            out.length ≤ b .uriBytes := by
  simp only [target_iff, uriNormalize, Option.bind_eq_bind, Option.bind_eq_some_iff, guard_eq_some,
    exists_const, Option.some.injEq, Prod.exists]
  constructor
  · rintro ⟨b, resolved, size, visible, scheme, plain, host, port, hAuth, normPath, hPath, short,
      same⟩
    refine ⟨b, _, _, host, port, normPath, resolved, ⟨size, visible, scheme, plain, rfl⟩, hAuth,
      hPath, same.symm, ?_⟩
    rw [← same]
    omega
  · rintro ⟨b, auth, path, host, port, normPath, resolved, ⟨size, visible, scheme, plain, parts⟩,
      hAuth, hPath, same, short⟩
    refine ⟨b, resolved, size, visible, scheme, plain, host, port, ?_, normPath, ?_, ?_, same.symm⟩
    · rw [parts]
      exact hAuth
    · rw [parts]
      exact hPath
    · rw [← same]
      omega

/-- A URI is returned exactly when it is one of the scheme with a path and an authority
that are read, and exactly the authorities of the grammar are read, each as it should, but
for those with an empty port behind a literal and those with a misread literal. -/
theorem uriNormalize_authority (uri : Bytes) (bounds : BoundsPointer) :
    (∀ out, uriNormalize uri bounds = some out ↔ ∃ b auth path host port normPath,
      resolveBounds bounds = some b ∧ Target b uri auth path ∧
        normalizeAuthority auth = some (host, port) ∧ normalizePath path = some normPath ∧
          out = ascii "https://" ++ host ++ (if port ≠ [] then ascii ":" ++ port else []) ++
          normPath ∧
            out.length ≤ b .uriBytes) ∧
    ∀ auth, (∀ host port, normalizeAuthority auth = some (host, port) ↔ Authority auth host port) ↔
      ¬(EmptyPort auth ∨ MisreadHost auth) :=
  ⟨uriNormalize_iff uri bounds, normalizeAuthority_exact_iff⟩

/-- The empty port is accepted. -/
theorem empty_port_accepted : ¬∀ (uri out : Bytes) (bounds : BoundsPointer),
    uriNormalize uri bounds = some out → ∃ b auth path host port,
      Target b uri auth path ∧ Authority auth host port := by
  intro always
  have accepted : uriNormalize (ascii "https://[::1]:/") none = some (ascii "https://[::1]/") := by
    decide +kernel
  obtain ⟨b, auth, path, host, port, target, proper⟩ := always _ _ _ accepted
  have parts := (target_iff.mp target).2.2.2.2
  have split : splitPath ((ascii "https://[::1]:/").drop 8) = (ascii "[::1]:", ascii "/") := by
    decide +kernel
  rw [split] at parts
  cases parts
  have whole : ascii "[::1]:" = 0x5B :: (ascii "::1" ++ 0x5D :: [0x3A]) := rfl
  rw [whole, authority_bracketed (by decide)] at proper
  exact not_suffix_colon proper.2

end BoundedAuthority.Go.Uri
