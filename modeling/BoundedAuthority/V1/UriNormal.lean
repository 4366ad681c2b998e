import BoundedAuthority.V1.Uri

/-!
# Normalizing a URI twice

The normal form of a path is its own, and so is that of a bracketed address.  A
registered name is classified before its escapes are decoded: what was no address in
dotted decimal may have become a name of digits and dots, and then it is refused
(`normalize_again_iff`).
-/

namespace BoundedAuthority.V1

open Wire Percent Segments

namespace UriPath

theorem pathRules : Rules pathByte id where
  percent := by decide
  unreserved := by
    intro b h
    simp [pathByte, h]
  closed _ h := h
  stable _ := rfl

theorem pathByte_slash : pathByte 0x2F = true := by decide

/-! ## Segments -/

/-- The segments of a path are normalized apart. -/
theorem normalizeBytes_join : ∀ (segments : List Bytes),
    normalizeBytes (join segments) = (segments.mapM normalizeBytes).map join
  | [] => rfl
  | [s] => by
      have first : normalizeBytes (0x2F :: s) = (normalizeBytes s).map (0x2F :: ·) :=
        normalize_literal (by decide) pathByte_slash
      simp only [join_cons, join_nil, List.append_nil, List.mapM_cons, List.mapM_nil]
      rw [first]
      cases normalizeBytes s <;> simp
  | s :: t :: rest => by
      have first : normalizeBytes (0x2F :: (s ++ join (t :: rest))) =
          (normalizeBytes (s ++ join (t :: rest))).map (0x2F :: ·) :=
        normalize_literal (by decide) pathByte_slash
      have split : normalizeBytes (s ++ 0x2F :: (t ++ join rest)) = (normalizeBytes s).bind fun x =>
          (normalizeBytes (t ++ join rest)).map fun y => x ++ 0x2F :: y :=
        pathRules.normalize_append pathByte_slash (by decide)
      have tail := normalizeBytes_join (t :: rest)
      have slash : normalizeBytes (join (t :: rest)) =
          (normalizeBytes (t ++ join rest)).map (0x2F :: ·) :=
        normalize_literal (by decide) pathByte_slash
      have path : join (s :: t :: rest) = 0x2F :: (s ++ join (t :: rest)) := rfl
      have behind : s ++ join (t :: rest) = s ++ 0x2F :: (t ++ join rest) := rfl
      rw [path, first, behind, split, List.mapM_cons]
      cases normalizeBytes s with
      | none => rfl
      | some x =>
          rw [slash] at tail
          cases later : (t :: rest).mapM normalizeBytes with
          | none =>
              rw [later, Option.map_none, Option.map_eq_none_iff] at tail
              rw [tail]
              rfl
          | some segments =>
              rw [later, Option.map_some] at tail
              obtain ⟨y, found, same⟩ := Option.map_eq_some_iff.mp tail
              rw [found]
              simp [← same]

/-- A path in normal form has its segments in normal form. -/
theorem normalizeBytes_eq_some {path n : Bytes} (h : normalizeBytes (0x2F :: path) = some n) :
    ∃ segments, n = join segments ∧ segments ≠ [] ∧ Plain segments ∧
      ∀ s ∈ segments, normalizeBytes s = some s := by
  obtain ⟨s, rest, same, plain⟩ := exists_join path
  rw [same, normalizeBytes_join] at h
  obtain ⟨segments, each, rfl⟩ := Option.map_eq_some_iff.mp h
  refine ⟨segments, rfl, ?_, fun t member => ?_, fun t member => ?_⟩
  · rintro rfl
    cases mapM_eq_some.mp each
  · obtain ⟨source, known, found⟩ := exists_of_mem_mapM each member
    exact Rules.notMem_normalize (by decide) (by decide) (fun _ h => h) found (plain source known)
  · obtain ⟨source, _, found⟩ := exists_of_mem_mapM each member
    exact pathRules.normalize_idempotent found

/-- Segments in normal form make a path in normal form. -/
theorem normalizeBytes_join_self {segments : List Bytes}
    (h : ∀ s ∈ segments, normalizeBytes s = some s) :
    normalizeBytes (join segments) = some (join segments) := by
  have each : segments.mapM normalizeBytes = some segments :=
    mapM_eq_some.mpr (List.forall₂_same.mpr h)
  rw [normalizeBytes_join, each]
  rfl

/-! ## Dot segments -/

theorem untilSlash_eq : ∀ (bs : Bytes) (count : Nat),
    untilSlash bs count = count + (bs.takeWhile fun b => b != 0x2F).length
  | [], count => rfl
  | b :: bs, count => by
      rw [untilSlash, List.takeWhile_cons]
      by_cases slash : b = 0x2F
      · simp [slash]
      · rw [if_neg slash, if_pos (bne_iff_ne.mpr slash), untilSlash_eq bs, List.length_cons]
        omega

/-- What is moved to the output is the first segment. -/
theorem firstSegmentLength_eq {path : Bytes} (more : path ≠ []) :
    firstSegmentLength path = (firstSegment path).length := by
  obtain ⟨b, rest, rfl⟩ := List.exists_cons_of_ne_nil more
  have segment : firstSegment (b :: rest) = b :: rest.takeWhile fun b => b != 0x2F := rfl
  rw [firstSegmentLength, untilSlash_eq, segment, List.length_cons]
  omega

/-- On a path that starts with a slash the code's removal is that of the buffers: the
steps for relative references never apply, and the two that leave a single slash are
followed by the one that moves it. -/
theorem removeDotSegments_eq : ∀ {fuel : Nat} {path output : Bytes}, Absolute path →
    path.length ≤ fuel →
    removeDotSegments fuel path output = Segments.removeDotSegments path output
  | 0, path, output, _, enough => by
      rw [List.eq_nil_of_length_eq_zero (Nat.le_zero.mp enough), Segments.removeDotSegments_nil]
      rfl
  | fuel + 1, [], output, _, _ => (Segments.removeDotSegments_nil output).symm
  | fuel + 1, b :: rest, output, absolute, enough => by
      obtain rfl := absolute b rfl
      have more : (0x2F :: rest : Bytes) ≠ [] := List.cons_ne_nil _ _
      have bound : ∀ {path' output' : Bytes}, step (0x2F :: rest) output = (path', output') →
          path'.length ≤ fuel := by
        intro path' output' round
        have shorter := step_shorter more output
        rw [round] at shorter
        exact Nat.le_of_lt_succ (shorter.trans_le enough)
      have relative : ¬(ascii "../").isPrefixOf (0x2F :: rest) = true := Bool.false_ne_true
      have relative' : ¬(ascii "./").isPrefixOf (0x2F :: rest) = true := Bool.false_ne_true
      have bare : ¬(0x2F :: rest = ascii "." ∨ 0x2F :: rest = ascii "..") := by
        rintro (same | same) <;> cases same
      have slash : ∀ n, Absolute (0x2F :: (0x2F :: rest : Bytes).drop n) := by
        rintro n b ⟨⟩
        rfl
      rw [removeDotSegments]
      split
      next dotSlash =>
        have round :
            step (0x2F :: rest) output = (0x2F :: (0x2F :: rest : Bytes).drop 3, output) := by
          rw [step, if_neg relative, if_neg relative', if_pos dotSlash]
        rw [Segments.removeDotSegments_step more round]
        exact removeDotSegments_eq (slash 3) (bound round)
      next dotSlash =>
        split
        next dot =>
          have round : step (0x2F :: rest) output = ([0x2F], output) := by
            rw [step, if_neg relative, if_neg relative', if_neg dotSlash, if_pos dot]
          rw [Segments.removeDotSegments_step more round, Segments.removeDotSegments_slash]
        next dot =>
          split
          next dotsSlash =>
            have round : step (0x2F :: rest) output =
                (0x2F :: (0x2F :: rest : Bytes).drop 4, withoutLast output) := by
              rw [step, if_neg relative, if_neg relative', if_neg dotSlash, if_neg dot,
                if_pos dotsSlash]
            rw [Segments.removeDotSegments_step more round]
            exact removeDotSegments_eq (slash 4) (bound round)
          next dotsSlash =>
            split
            next dots =>
              have round : step (0x2F :: rest) output = ([0x2F], withoutLast output) := by
                rw [step, if_neg relative, if_neg relative', if_neg dotSlash, if_neg dot,
                  if_neg dotsSlash, if_pos dots]
              rw [Segments.removeDotSegments_step more round, Segments.removeDotSegments_slash]
              rfl
            next dots =>
              have length := firstSegmentLength_eq more
              have segment : (0x2F :: rest : Bytes).take (firstSegmentLength (0x2F :: rest)) =
                  firstSegment (0x2F :: rest) := by
                rw [length, take_firstSegment]
              have round : step (0x2F :: rest) output =
                  ((0x2F :: rest : Bytes).drop (firstSegmentLength (0x2F :: rest)),
                    output ++ firstSegment (0x2F :: rest)) := by
                rw [step, if_neg relative, if_neg relative', if_neg dotSlash, if_neg dot,
                  if_neg dotsSlash, if_neg dots, if_neg bare, length]
              have absolute' : Absolute
                  ((0x2F :: rest : Bytes).drop (firstSegmentLength (0x2F :: rest))) := by
                rw [firstSegmentLength, untilSlash_eq, Nat.zero_add, Nat.add_comm,
                  List.drop_succ_cons]
                exact absolute_drop rest
              rw [segment, Segments.removeDotSegments_step more round]
              exact removeDotSegments_eq absolute' (bound round)

/-- On segments the code's removal is that of the segments. -/
theorem removeDotSegments_join {segments : List Bytes} (plain : Plain segments) :
    removeDotSegments (join segments).length (join segments) [] =
      join (removeDots segments []) := by
  have nothing : Plain [] := fun _ h => (List.not_mem_nil h).elim
  rw [removeDotSegments_eq (absolute_join segments) le_rfl]
  exact Segments.removeDotSegments_join plain nothing

/-- What a normalized path is made of. -/
structure NormalPath (path : Bytes) : Prop where
  segments : ∃ segments, path = join segments ∧ segments ≠ [] ∧ Plain segments ∧
    Dotless segments ∧ ∀ s ∈ segments, normalizeBytes s = some s

theorem normalPath_of_normalize {path n : Bytes} (h : normalize path = some n) : NormalPath n := by
  cases path with
  | nil =>
      obtain rfl := Option.some.inj h
      refine ⟨[[]], rfl, List.cons_ne_nil _ _, ?_, ?_, ?_⟩
      · exact List.forall_mem_singleton.mpr List.not_mem_nil
      · exact List.forall_mem_singleton.mpr ⟨by decide, by decide⟩
      · exact List.forall_mem_singleton.mpr rfl
  | cons b rest =>
      simp only [normalize, Option.bind_eq_bind, Option.bind_eq_some_iff, guard_eq_some,
        exists_const, Option.some.injEq] at h
      obtain ⟨rfl, bytes, percent, -, rfl⟩ := h
      obtain ⟨segments, rfl, nonempty, plain, normal⟩ := normalizeBytes_eq_some percent
      have removed := removeDotSegments_join plain
      have known : ∀ t ∈ removeDots segments [], t ∈ segments ∨ t = [] := by
        intro t member
        rcases mem_removeDots member with input | output | empty
        · exact .inl input
        · cases output
        · exact .inr empty
      refine ⟨removeDots segments [], removed, removeDots_ne_nil (.inl nonempty), ?_,
        dotless_removeDots (by simp [Dotless]), ?_⟩
      · intro t member
        rcases known t member with input | rfl
        · exact plain t input
        · exact List.not_mem_nil
      · intro t member
        rcases known t member with input | rfl
        · exact normal t input
        · rfl

/-- A normalized path is its own normal form. -/
theorem NormalPath.normalize {path : Bytes} (h : NormalPath path) :
    UriPath.normalize path = some path := by
  obtain ⟨segments, rfl, nonempty, plain, dotless, normal⟩ := h.segments
  have removed : removeDotSegments (join segments).length (join segments) [] = join segments := by
    rw [removeDotSegments_join plain, removeDots_of_dotless [] dotless, List.nil_append]
  obtain ⟨s, rest, rfl⟩ := List.exists_cons_of_ne_nil nonempty
  have bytes : normalizeBytes (0x2F :: (s ++ join rest)) = some (join (s :: rest)) :=
    normalizeBytes_join_self normal
  have whole : join (s :: rest) = 0x2F :: (s ++ join rest) := rfl
  rw [whole] at removed bytes ⊢
  simp only [UriPath.normalize, bytes, removed, Option.bind_eq_bind, Option.bind_some, guard_true,
    Option.pure_def, ne_eq, reduceCtorEq, not_false_eq_true]

/-- The bytes of a normalized path. -/
theorem NormalPath.bytes {path : Bytes} (h : NormalPath path) :
    ∀ b ∈ path, pathByte b = true ∨ b = 0x25 := by
  obtain ⟨segments, rfl, -, -, -, normal⟩ := h.segments
  exact pathRules.allowed_of_mem (normalizeBytes_join_self normal)

theorem NormalPath.head {path : Bytes} (h : NormalPath path) : ∃ rest, path = 0x2F :: rest := by
  obtain ⟨segments, rfl, nonempty, -⟩ := h.segments
  obtain ⟨s, rest, rfl⟩ := List.exists_cons_of_ne_nil nonempty
  exact ⟨s ++ join rest, rfl⟩

/-- The segments of a normalized path are neither `.` nor `..`, and do not stand for
them either. -/
theorem NormalPath.dotFree {segments : List Bytes} (h : NormalPath (join segments))
    (plain : Plain segments) :
    ∀ s ∈ segments, (s ≠ dot ∧ s ≠ dots) ∧ decode s ≠ dot ∧ decode s ≠ dots := by
  obtain ⟨own, same, -, plain', dotless, normal⟩ := h.segments
  obtain rfl := join_inj plain plain' same
  intro s member
  have literal : ∀ {part : Bytes}, (∀ b ∈ part, isUnreserved b = true) → decode s = part →
      s = part := by
    rintro part unreserved rfl
    have decoded := Rules.eq_decode (normal s member) (.inr unreserved)
    rwa [List.map_id] at decoded
  have plainDot : ∀ b ∈ dot, isUnreserved b = true := by decide +kernel
  have plainDots : ∀ b ∈ dots, isUnreserved b = true := by decide +kernel
  obtain ⟨notDot, notDots⟩ := dotless s member
  exact ⟨⟨notDot, notDots⟩, fun h => notDot (literal plainDot h), fun h => notDots
    (literal plainDots h)⟩

/-- A path that is not empty is normalized by one pass over its escapes and the removal
of its dot segments. -/
theorem eq_removeDotSegments {path n : Bytes} (h : normalize path = some n) (some_ : path ≠ []) :
    n = Segments.removeDotSegments (decodeUnreserved path) [] := by
  obtain ⟨b, rest, rfl⟩ := List.exists_cons_of_ne_nil some_
  simp only [normalize, Option.bind_eq_bind, Option.bind_eq_some_iff, guard_eq_some,
    exists_const, Option.some.injEq] at h
  obtain ⟨rfl, bytes, percent, -, rfl⟩ := h
  rw [← eq_decodeUnreserved percent]
  obtain ⟨segments, rfl, -⟩ := normalizeBytes_eq_some percent
  exact removeDotSegments_eq (absolute_join segments) le_rfl

/-- Normalization is that of RFC 3986, the empty path apart. -/
theorem normalize_rfc {path n : Bytes} (h : normalize path = some n) :
    (path = [] → n = ascii "/") ∧
      (path ≠ [] → n = Segments.removeDotSegments (decodeUnreserved path) []) ∧
      n.head? = some 0x2F ∧
      (∀ segments, Plain segments → n = join segments →
        ∀ s ∈ segments, (s ≠ dot ∧ s ≠ dots) ∧ decode s ≠ dot ∧ decode s ≠ dots) ∧
      normalize n = some n := by
  have normal := normalPath_of_normalize h
  refine ⟨?_, eq_removeDotSegments h, ?_, ?_, normal.normalize⟩
  · rintro rfl
    exact (Option.some.inj h).symm
  · obtain ⟨rest, rfl⟩ := normal.head
    rfl
  · rintro segments plain rfl
    exact normal.dotFree plain

theorem normalize_rfc_sample : normalize (ascii "/a/%2e%2E//b%2f/.") = some (ascii "//b%2F/") ∧
    normalize (ascii "//b%2F/") = some (ascii "//b%2F/") := by
  have sample : normalize (ascii "/a/%2e%2E//b%2f/.") = some (ascii "//b%2F/") := by decide +kernel
  exact ⟨sample, (normalize_rfc sample).2.2.2.2⟩

/-- The empty path gets a slash, which the removal of dot segments does not put there. -/
theorem normalize_empty : ¬∀ path n : Bytes, normalize path = some n →
    n = Segments.removeDotSegments (decodeUnreserved path) [] := by
  intro claim
  have slash := claim [] [0x2F] rfl
  rw [decodeUnreserved, Segments.removeDotSegments_nil] at slash
  cases slash

end UriPath

namespace Uri

/-! ## Registered names -/

theorem regNameRules : Rules regNameByte lower where
  percent := by decide
  unreserved := by
    intro b h
    simp [regNameByte, h]
  closed := by
    intro b h
    rw [regNameByte, isUnreserved_lower, isSubDelim_lower]
    exact h
  stable := lower_lower

/-- The two functions on registered names are one normal form. -/
theorem normalize_regName (host : Bytes) : Percent.normalize regNameByte lower host =
    if validRegNameBytes host then some (normalizeRegNameBytes host) else none := by
  fun_induction Percent.normalize regNameByte lower host with
  | case1 => rfl
  | case2 high low rest hex ih =>
      have valid : validRegNameBytes (0x25 :: high :: low :: rest) = validRegNameBytes rest := by
        rw [validRegNameBytes.eq_def]
        simp only [↓reduceIte, hex, Bool.true_and]
      have normal : normalizeRegNameBytes (0x25 :: high :: low :: rest) =
          escaped lower high low ++ normalizeRegNameBytes rest := by
        rw [normalizeRegNameBytes.eq_def]
        simp only [↓reduceIte]
      rw [ih, valid, normal]
      split <;> rfl
  | case3 high low rest hex =>
      rw [validRegNameBytes.eq_def]
      simp [hex]
  | case4 rest short =>
      have refused : validRegNameBytes (0x25 :: rest) = false := by
        cases rest with
        | nil => rfl
        | cons high tail =>
            cases tail with
            | nil => rfl
            | cons low rest => exact (short high low rest rfl).elim
      rw [refused]
      rfl
  | case5 b rest percent plain ih =>
      have valid : validRegNameBytes (b :: rest) = validRegNameBytes rest := by
        rw [validRegNameBytes.eq_def]
        simp only [if_neg percent, plain, Bool.true_and]
      have normal : normalizeRegNameBytes (b :: rest) = lower b :: normalizeRegNameBytes rest := by
        rw [normalizeRegNameBytes.eq_def]
        simp only [if_neg percent]
      rw [ih, valid, normal]
      split <;> rfl
  | case6 b rest percent refused =>
      have invalid : validRegNameBytes (b :: rest) = false := by
        rw [validRegNameBytes.eq_def]
        simp only [if_neg percent, Bool.not_eq_true _ ▸ refused, Bool.false_and]
      rw [invalid]
      rfl

/-- What lowering does to the bytes a host is told apart by. -/
theorem lower_hosts (b : UInt8) :
    (isDigit (lower b) = isDigit b ∧ (isDigit b = true → lower b = b)) ∧
    ((lower b = 0x2E ↔ b = 0x2E) ∧ (lower b = 0x3A ↔ b = 0x3A) ∧ (lower b = 0x5D ↔ b = 0x5D)) ∧
    (lower b = 0x76 ↔ b = 0x76 ∨ b = 0x56) ∧ lower b ≠ 0x56 := by
  refine lower_forall (P := fun b c => (isDigit c = isDigit b ∧ (isDigit b = true → c = b)) ∧
    ((c = 0x2E ↔ b = 0x2E) ∧ (c = 0x3A ↔ b = 0x3A) ∧ (c = 0x5D ↔ b = 0x5D)) ∧
      (c = 0x76 ↔ b = 0x76 ∨ b = 0x56) ∧ c ≠ 0x56) ?_ (by decide) b
  intro b small
  have other : b ≠ 0x56 := fun same => absurd (same ▸ small) (by decide)
  exact ⟨⟨rfl, fun _ => rfl⟩, ⟨Iff.rfl, Iff.rfl, Iff.rfl⟩, (or_iff_left other).symm, other⟩

theorem isDigit_lower (b : UInt8) : isDigit (lower b) = isDigit b := (lower_hosts b).1.1

theorem lower_of_isDigit {b : UInt8} (h : isDigit b = true) : lower b = b := (lower_hosts b).1.2 h

theorem isUnreserved_of_dotted {b : UInt8} (h : (isDigit b || b == 0x2E) = true) :
    isUnreserved b = true := by
  rcases Bool.or_eq_true_iff.mp h with digit | dot
  · simp [isUnreserved, isAlnum, digit]
  · rw [beq_iff_eq.mp dot]
    decide

theorem lower_eq_dot (b : UInt8) : lower b = 0x2E ↔ b = 0x2E := (lower_hosts b).2.1.1

theorem lower_eq_colon (b : UInt8) : lower b = 0x3A ↔ b = 0x3A := (lower_hosts b).2.1.2.1

/-- The version of a future address in either case. -/
theorem lower_eq_version (b : UInt8) : lower b = 0x76 ↔ b = 0x76 ∨ b = 0x56 :=
  (lower_hosts b).2.2.1

theorem lower_ne_upper (b : UInt8) : lower b ≠ 0x56 := (lower_hosts b).2.2.2

/-- An address in dotted decimal is a registered name, so every accepted name has a
normal form. -/
theorem validRegNameBytes_of_dotted {host : Bytes} (h : dottedDigits host = true) :
    validRegNameBytes host = true := by
  have digits := (Bool.and_eq_true_iff.mp h).1
  clear h
  induction host with
  | nil => rfl
  | cons b host ih =>
      rw [List.all_cons, Bool.and_eq_true] at digits
      have plain : regNameByte b = true := by
        rw [regNameByte, isUnreserved_of_dotted digits.1, Bool.true_or]
      rw [validRegNameBytes.eq_def]
      simp only [if_neg (regNameRules.ne_percent plain), plain, Bool.true_and]
      exact ih digits.2

theorem validRegNameBytes_of_registered {host : Bytes} (h : validRegisteredHost host = true) :
    validRegNameBytes host = true := by
  rw [validRegisteredHost] at h
  split at h
  next dotted => exact validRegNameBytes_of_dotted dotted
  next => exact h

/-- What a registered name becomes. -/
structure NormalName (host : Bytes) : Prop where
  nonempty : host ≠ []
  valid : validRegNameBytes host = true
  own : normalizeRegNameBytes host = host

theorem normalName {host : Bytes} (nonempty : host ≠ []) (h : validRegisteredHost host = true) :
    NormalName (normalizeRegNameBytes host) := by
  have normal : Percent.normalize regNameByte lower host = some (normalizeRegNameBytes host) := by
    rw [normalize_regName, if_pos (validRegNameBytes_of_registered h)]
  have again := regNameRules.normalize_idempotent normal
  rw [normalize_regName] at again
  split at again
  next valid =>
    refine ⟨?_, valid, Option.some.inj again⟩
    intro empty
    rw [empty] at normal
    exact nonempty (Percent.normalize_eq_nil normal)
  next => cases again

/-- A normal name is accepted when it does not look like an address, or is one. -/
theorem NormalName.registered {host : Bytes} (h : NormalName host) (port : Option Nat) :
    normalizeRegisteredHost host port =
      if dottedDigits host = true → validIpv4Tail host = true then some (host, port) else none := by
  by_cases dotted : dottedDigits host = true
  · cases tail : validIpv4Tail host <;>
      simp [normalizeRegisteredHost, validRegisteredHost, dotted, tail, h.nonempty, h.own, guard]
  · simp [normalizeRegisteredHost, validRegisteredHost, dotted, h.nonempty, h.valid, h.own, guard]

theorem NormalName.bytes {host : Bytes} (h : NormalName host) :
    ∀ b ∈ host, regNameByte b = true ∨ b = 0x25 := by
  have normal : Percent.normalize regNameByte lower host = some host := by
    rw [normalize_regName, if_pos h.valid, h.own]
  exact regNameRules.allowed_of_mem normal

/-- Digits and dots are what a name says once its escapes are decoded. -/
theorem dotted_normal {host : Bytes} (h : validRegisteredHost host = true) :
    (dottedDigits (normalizeRegNameBytes host) = true →
      validIpv4Tail (normalizeRegNameBytes host) = true) ↔
      (dottedDigits (decode host) = true → validIpv4Tail (decode host) = true) := by
  have normal : Percent.normalize regNameByte lower host = some (normalizeRegNameBytes host) := by
    rw [normalize_regName, if_pos (validRegNameBytes_of_registered h)]
  have allDotted : ∀ {text : Bytes}, dottedDigits text = true →
      ∀ b ∈ text, (isDigit b || b == 0x2E) = true := by
    intro text dotted
    exact List.all_eq_true.mp (Bool.and_eq_true_iff.mp dotted).1
  have same : dottedDigits (normalizeRegNameBytes host) = true ∨ dottedDigits (decode host) = true →
      normalizeRegNameBytes host = decode host := by
    intro dotted
    have plain : 0x25 ∉ normalizeRegNameBytes host ∨ ∀ b ∈ decode host, isUnreserved b = true := by
      refine dotted.imp (fun dotted member => ?_) fun dotted b member => ?_
      · have := allDotted dotted _ member
        revert this
        decide
      · exact isUnreserved_of_dotted (allDotted dotted b member)
    have lowered := Rules.eq_decode normal plain
    have fixed : ∀ b ∈ decode host, lower b = b := by
      intro b member
      have character : (isDigit b || b == 0x2E) = true := by
        rcases dotted with dotted | dotted
        · have image := allDotted dotted (lower b)
            (lowered ▸ List.mem_map.mpr ⟨b, member, rfl⟩)
          rw [isDigit_lower] at image
          simpa [lower_eq_dot] using image
        · exact allDotted dotted b member
      rcases Bool.or_eq_true_iff.mp character with digit | dot
      · exact lower_of_isDigit digit
      · rw [beq_iff_eq.mp dot]
        rfl
    rw [lowered, List.map_congr_left fixed, List.map_id']
  constructor
  · intro keeps dotted
    have equal := same (.inr dotted)
    rw [← equal] at dotted ⊢
    exact keeps dotted
  · intro keeps dotted
    have equal := same (.inl dotted)
    rw [equal] at dotted ⊢
    exact keeps dotted

/-! ## Addresses in brackets -/

theorem dot_own : ∀ p ∈ ascii ".", ∀ b, lower b = p ↔ b = p :=
  List.forall_mem_singleton.mpr lower_eq_dot

theorem colon_own : ∀ p ∈ ascii ":", ∀ b, lower b = p ↔ b = p :=
  List.forall_mem_singleton.mpr lower_eq_colon

theorem colons_own : ∀ p ∈ ascii "::", ∀ b, lower b = p ↔ b = p :=
  List.forall_mem_cons.mpr ⟨lower_eq_colon, List.forall_mem_singleton.mpr lower_eq_colon⟩

@[simp] theorem all_lower {property : UInt8 → Bool} (h : ∀ b, property (lower b) = property b)
    (bs : Bytes) : (bs.map lower).all property = bs.all property := by
  rw [List.all_map]
  exact congrArg (List.all bs) (funext h)

theorem validHexGroup_lower (group : Bytes) :
    validHexGroup (group.map lower) = validHexGroup group := by
  rw [validHexGroup, List.length_map, all_lower isHex_lower, validHexGroup]

theorem validIpv4Octet_lower (octet : Bytes) :
    validIpv4Octet (octet.map lower) = validIpv4Octet octet := by
  by_cases digits : octet.all isDigit = true
  · have same : octet.map lower = octet := by
      rw [List.map_congr_left fun b member => lower_of_isDigit
        (List.all_eq_true.mp digits b member), List.map_id']
    rw [same]
  · rw [Bool.not_eq_true] at digits
    simp [validIpv4Octet, all_lower isDigit_lower, digits]

theorem validIpv4Tail_lower (tail : Bytes) :
    validIpv4Tail (tail.map lower) = validIpv4Tail tail := by
  rw [validIpv4Tail, splitGlobal_map dot_own, validIpv4Tail]
  rcases splitGlobal (ascii ".") tail with _ | ⟨a, _ | ⟨b, _ | ⟨c, _ | ⟨d, _ | ⟨e, rest⟩⟩⟩⟩⟩ <;>
    simp [validIpv4Octet_lower]

theorem ipv6GroupsLength_lower (groups : List Bytes) (count : Nat) :
    ipv6GroupsLength (groups.map (List.map lower)) count = ipv6GroupsLength groups count := by
  fun_induction ipv6GroupsLength groups count with
  | case1 => rfl
  | case2 count group plain valid =>
      simp [ipv6GroupsLength, cut_map dot_own, plain, validHexGroup_lower, valid]
  | case3 count group plain valid =>
      simp [ipv6GroupsLength, cut_map dot_own, plain, validHexGroup_lower, valid]
  | case4 count group plain valid =>
      simp [ipv6GroupsLength, cut_map dot_own, plain, validIpv4Tail_lower, valid]
  | case5 count group plain valid =>
      simp [ipv6GroupsLength, cut_map dot_own, plain, validIpv4Tail_lower, valid]
  | case6 group rest count nonempty valid ih =>
      cases rest with
      | nil => exact (nonempty rfl).elim
      | cons next rest =>
          rw [List.map_cons, List.map_cons, ipv6GroupsLength, if_pos, ← List.map_cons, ih]
          · rw [validHexGroup_lower, valid]
          · simp
  | case7 group rest count nonempty valid =>
      cases rest with
      | nil => exact (nonempty rfl).elim
      | cons next rest =>
          rw [List.map_cons, List.map_cons, ipv6GroupsLength, if_neg]
          · rw [validHexGroup_lower]
            exact valid
          · simp

theorem ipv6SideLength_lower (side : Bytes) :
    ipv6SideLength (side.map lower) = ipv6SideLength side := by
  simp only [ipv6SideLength, List.map_eq_nil_iff, splitGlobal_map colon_own, ipv6GroupsLength_lower]

theorem validIpv6Literal_lower (host : Bytes) :
    validIpv6Literal (host.map lower) = validIpv6Literal host := by
  rw [validIpv6Literal, splitGlobal_map colons_own, validIpv6Literal]
  rcases splitGlobal (ascii "::") host with _ | ⟨a, _ | ⟨b, _ | ⟨c, rest⟩⟩⟩ <;>
    simp [ipv6SideLength_lower]

theorem validIpvFuture_lower (value : Bytes) :
    validIpvFuture (value.map lower) = validIpvFuture value := by
  have address : ∀ b, (isUnreserved (lower b) || isSubDelim (lower b) || lower b == 0x3A) =
      (isUnreserved b || isSubDelim b || b == 0x3A) := by
    intro b
    have colon : (lower b == 0x3A) = (b == 0x3A) := by
      rw [Bool.eq_iff_iff, beq_iff_eq, beq_iff_eq, lower_eq_colon]
    rw [isUnreserved_lower, isSubDelim_lower, colon]
  rw [validIpvFuture, cut_map dot_own, validIpvFuture]
  rcases cut (ascii ".") value with _ | ⟨version, rest⟩
  · rfl
  · have same : (rest.map lower).all (fun b => isUnreserved b || isSubDelim b || b == 0x3A) =
        rest.all fun b => isUnreserved b || isSubDelim b || b == 0x3A := all_lower address rest
    simp only [List.map_eq_nil_iff, Option.map_some, ne_eq, all_lower isHex_lower, same]

/-- Case does not tell addresses in brackets apart. -/
theorem validIpLiteral_lower (host : Bytes) :
    validIpLiteral (asciiDowncase host) = validIpLiteral host := by
  cases host with
  | nil => rfl
  | cons b rest =>
      have future := lower_eq_version b
      have never := lower_ne_upper b
      rw [asciiDowncase, List.map_cons, validIpLiteral, validIpLiteral, if_neg never,
        validIpvFuture_lower, ← List.map_cons, validIpv6Literal_lower]
      by_cases first : b = 0x76
      · rw [if_pos (future.mpr (.inl first)), if_pos first]
      · by_cases second : b = 0x56
        · rw [if_pos (future.mpr (.inr second)), if_neg first, if_pos second]
        · rw [if_neg (mt future.mp (by tauto)), if_neg first, if_neg second]

/-! ## Authorities -/

/-- A port as it is written behind a host. -/
def portText : Option Nat → Bytes
  | none => []
  | some port => if port = 443 then [] else 0x3A :: Decimal.ofNat port

/-- The port that is read from `portText`. -/
def keptPort : Option Nat → Option Nat
  | none => none
  | some port => if port = 443 then none else some port

theorem buildUri_eq (host : Bytes) (port : Option Nat) (path : Bytes) :
    buildUri host port path = ascii "https://" ++ ((host ++ portText port) ++ path) := by
  cases port with
  | none => simp [buildUri, portText]
  | some port =>
      simp only [buildUri, portText]
      split
      · simp
      · have colon : ascii ":" = [0x3A] := rfl
        simp [colon]

theorem buildUri_keptPort (host : Bytes) (port : Option Nat) (path : Bytes) :
    buildUri host (keptPort port) path = buildUri host port path := by
  cases port with
  | none => rfl
  | some port =>
      simp only [keptPort]
      split
      next default => simp [buildUri, default]
      next => rfl

/-- The ports a URI can name. -/
def PortOk (port : Option Nat) : Prop := ∀ value ∈ port, 1 ≤ value ∧ value ≤ 65535

theorem parsePort_eq_some {port : Bytes} {value : Nat} (h : parsePort port = some value) :
    1 ≤ value ∧ value ≤ 65535 := by
  simp only [parsePort, Option.bind_eq_bind, Option.bind_eq_some_iff, guard_eq_some, exists_const,
    Option.some.injEq] at h
  obtain ⟨-, range, rfl⟩ := h
  exact range

theorem parsePort_ofNat {value : Nat} (range : 1 ≤ value ∧ value ≤ 65535) :
    parsePort (Decimal.ofNat value) = some value := by
  have digits : (Decimal.ofNat value).all isDigit = true :=
    List.all_eq_true.mpr (Decimal.ofNat_digits value)
  simp [parsePort, Decimal.ofNat_ne_nil, digits, range, guard]

theorem parsePortSuffix_portText {port : Option Nat} (h : PortOk port) :
    parsePortSuffix (portText port) = some (keptPort port) := by
  cases port with
  | none => rfl
  | some value =>
      simp only [portText, keptPort]
      split
      · rfl
      · simp [parsePortSuffix, parsePort_ofNat (h value rfl), guard]

/-- What an authority is written in. -/
def Visible (b : UInt8) : Prop := within 0x21 0x7E b = true ∧ b ∉ ascii "/?#@"

instance (b : UInt8) : Decidable (Visible b) := inferInstanceAs (Decidable (_ ∧ _))

set_option maxRecDepth 4096 in
/-- The characters that stand alone are visible and delimit nothing. -/
theorem visible_unreserved {b : UInt8} (h : isUnreserved b = true) :
    Visible b ∧ b ≠ 0x3A ∧ b ≠ 0x5B := by
  rcases Bool.or_eq_true_iff.mp h with alnum | mark
  · exact byte_forall (P := fun b => isAlnum b = true → Visible b ∧ b ≠ 0x3A ∧ b ≠ 0x5B)
      (by decide) b alnum
  · have marks : ∀ c ∈ ascii "-._~", Visible c ∧ c ≠ 0x3A ∧ c ≠ 0x5B := by decide
    exact marks b (List.contains_iff_mem.mp mark)

theorem Visible.lower {b : UInt8} : Visible b → Visible (lower b) :=
  lower_forall (P := fun b c => Visible b → Visible c) (fun _ _ h => h) (by decide) b

theorem visible_of_regNameByte {b : UInt8} (h : regNameByte b = true ∨ b = 0x25) :
    Visible b ∧ b ≠ 0x3A ∧ b ≠ 0x5B := by
  rcases h with regular | rfl
  · rcases Bool.or_eq_true_iff.mp regular with plain | delimiter
    · exact visible_unreserved plain
    · have delimiters : ∀ c ∈ ascii "!$&'()*+,;=", Visible c ∧ c ≠ 0x3A ∧ c ≠ 0x5B := by
        decide +kernel
      exact delimiters b (List.contains_iff_mem.mp delimiter)
  · decide

theorem visible_of_isDigit {b : UInt8} (h : isDigit b = true) : Visible b ∧ b ≠ 0x3A := by
  have plain := visible_unreserved (isUnreserved_of_dotted (by rw [h]; rfl))
  exact ⟨plain.1, plain.2.1⟩

theorem visible_of_pathByte {b : UInt8} (h : UriPath.pathByte b = true ∨ b = 0x25) :
    within 0x21 0x7E b = true ∧ b ∉ ascii "?#" := by
  have among : ∀ c ∈ ascii "?#", c ∈ ascii "/?#@" := by decide +kernel
  have regular : regNameByte b = true ∨ b = 0x25 → within 0x21 0x7E b = true ∧ b ∉ ascii "?#" :=
    fun h => (visible_of_regNameByte h).1.imp_right fun free member => free (among b member)
  rcases h with path | percent
  · rcases Bool.or_eq_true_iff.mp path with plain | mark
    · exact regular (.inl plain)
    · have marks : ∀ c ∈ ascii "/:@", within 0x21 0x7E c = true ∧ c ∉ ascii "?#" := by
        decide +kernel
      exact marks b (List.contains_iff_mem.mp mark)
  · exact regular (.inr percent)

theorem visible_portText (port : Option Nat) : ∀ b ∈ portText port, Visible b := by
  cases port with
  | none => simp [portText]
  | some value =>
      simp only [portText]
      split
      · simp
      · rw [List.forall_mem_cons]
        exact ⟨by decide,
          fun b member => (visible_of_isDigit (Decimal.ofNat_digits value b member)).1⟩

/-- What a host becomes. -/
inductive NormalHost (host : Bytes) : Prop
  | name (h : NormalName host)
  | literal (address : Bytes) (same : host = 0x5B :: address ++ [0x5D])
      (valid : validIpLiteral address = true) (lowered : asciiDowncase address = address)
      (closed : 0x5D ∉ address) (visible : ∀ b ∈ address, Visible b)

/-- A host that looks like an address in dotted decimal is one. -/
def HostOk (host : Bytes) : Prop := dottedDigits host = true → validIpv4Tail host = true

instance (host : Bytes) : Decidable (HostOk host) := inferInstanceAs (Decidable (_ → _))

namespace NormalHost

variable {host : Bytes} (h : NormalHost host)

include h

theorem visible : ∀ b ∈ host, Visible b := by
  cases h with
  | name h => exact fun b member => (visible_of_regNameByte (h.bytes b member)).1
  | literal address same valid lowered closed visible =>
      subst same
      rw [List.cons_append, List.forall_mem_cons, List.forall_mem_append,
        List.forall_mem_singleton]
      exact ⟨by decide, visible, by decide⟩

theorem nonempty : host ≠ [] := by
  cases h with
  | name h => exact h.nonempty
  | literal address same =>
      rw [same]
      exact List.cons_ne_nil _ _

/-- A normal authority is read as it was written, a name that looks like an address
only when it is one. -/
theorem parseHostPort {port : Option Nat} (portOk : PortOk port) :
    Uri.parseHostPort (host ++ portText port) =
      if HostOk host then some (host, keptPort port) else none := by
  cases h with
  | literal address same valid lowered closed visible =>
      subst same
      have okay : HostOk (0x5B :: address ++ [0x5D]) := by
        intro dotted
        simp [dottedDigits, isDigit, within] at dotted
      have inner : cut (ascii "]") (address ++ 0x5D :: portText port) =
          some (address, portText port) := cut_singleton_append _ closed
      have whole : (0x5B :: address ++ [0x5D]) ++ portText port =
          0x5B :: (address ++ 0x5D :: portText port) := by simp
      rw [if_pos okay, whole, Uri.parseHostPort, if_pos List.head?_cons]
      simp [inner, valid, parsePortSuffix_portText portOk, lowered, guard]
  | name h =>
      have bytes : ∀ b ∈ host, b ≠ 0x3A ∧ b ≠ 0x5B := fun b member =>
        (visible_of_regNameByte (h.bytes b member)).2
      have colonFree : 0x3A ∉ host := fun member => (bytes _ member).1 rfl
      have noBracket : (host ++ portText port).head? ≠ some 0x5B := by
        obtain ⟨b, rest, rfl⟩ := List.exists_cons_of_ne_nil h.nonempty
        intro same
        exact (bytes b List.mem_cons_self).2 (Option.some.inj same)
      rw [Uri.parseHostPort, if_neg noBracket]
      have registered := h.registered
      by_cases written : portText port = []
      · have kept : keptPort port = none := by
          cases port with
          | none => rfl
          | some value =>
              simp only [portText, keptPort] at written ⊢
              split at written
              next default => rw [if_pos default]
              next => cases written
        have found : cut (ascii ":") host = none := cut_singleton_eq_none.mpr colonFree
        rw [written, List.append_nil, found, kept]
        exact registered none
      · cases port with
        | none => exact (written rfl).elim
        | some value =>
            simp only [portText] at written ⊢
            split at written
            next => exact (written rfl).elim
            next other =>
              have found : cut (ascii ":") (host ++ 0x3A :: Decimal.ofNat value) =
                  some (host, Decimal.ofNat value) := cut_singleton_append _ colonFree
              have once : cut (ascii ":") (Decimal.ofNat value) = none :=
                cut_singleton_eq_none.mpr fun member =>
                  (visible_of_isDigit (Decimal.ofNat_digits value _ member)).2 rfl
              have kept : keptPort (some value) = some value := if_neg other
              rw [if_neg other, found, kept]
              simp only [once, parsePort_ofNat (portOk value rfl), Option.bind_eq_bind, guard_true,
                Option.pure_def, Option.bind_some]
              exact registered (some value)

end NormalHost

/-- The name an authority outside brackets is read as. -/
def registeredName (authority : Bytes) : Bytes :=
  match cut (ascii ":") authority with
  | none => authority
  | some (host, _) => host

/-- A registered name that looks like an address in dotted decimal once its escapes
are decoded is one. -/
def keepsHost (uri : Bytes) : Bool :=
  match splitHttps uri with
  | none => true
  | some (authority, _) =>
      authority.head? = some 0x5B || decide (HostOk (decode (registeredName authority)))

theorem normalizeRegisteredHost_eq_some {name host : Bytes} {port port' : Option Nat}
    (h : normalizeRegisteredHost name port = some (host, port')) :
    NormalName host ∧ (HostOk host ↔ HostOk (decode name)) ∧ port' = port := by
  simp only [normalizeRegisteredHost, Option.bind_eq_bind, Option.bind_eq_some_iff, guard_eq_some,
    exists_const, Option.some.injEq, Prod.mk.injEq] at h
  obtain ⟨⟨nonempty, valid⟩, rfl, rfl⟩ := h
  exact ⟨normalName nonempty valid, dotted_normal valid, rfl⟩

/-- What an accepted authority becomes. -/
theorem parseHostPort_eq_some {authority host : Bytes} {port : Option Nat}
    (visible : ∀ b ∈ authority, Visible b)
    (h : parseHostPort authority = some (host, port)) :
    NormalHost host ∧ PortOk port ∧
      (HostOk host ↔ authority.head? = some 0x5B ∨ HostOk (decode (registeredName authority))) := by
  rw [parseHostPort] at h
  split at h
  next bracket =>
    simp only [Option.bind_eq_bind, Option.bind_eq_some_iff, guard_eq_some, exists_const,
      Option.some.injEq, Prod.mk.injEq, Prod.exists] at h
    obtain ⟨address, suffix, found, valid, read, portRead, rfl, rfl⟩ := h
    have whole := cut_eq_some found
    have within : ∀ b ∈ address, Visible b := by
      intro b member
      refine visible b (List.mem_of_mem_drop (i := 1) ?_)
      rw [whole]
      simp [member]
    have okay : HostOk (0x5B :: asciiDowncase address ++ [0x5D]) := by
      intro dotted
      simp [dottedDigits, isDigit, Wire.within] at dotted
    have normal : NormalHost (0x5B :: asciiDowncase address ++ [0x5D]) := by
      refine .literal (asciiDowncase address) rfl ?_ ?_ ?_ ?_
      · rw [validIpLiteral_lower, valid]
      · rw [asciiDowncase, asciiDowncase, List.map_map]
        exact List.map_congr_left fun b _ => lower_lower b
      · intro member
        obtain ⟨b, known, same⟩ := List.mem_map.mp member
        have closing : lower b = 0x5D → b = 0x5D := (lower_hosts b).2.1.2.2.mp
        have free : 0x5D ∉ address := cut_singleton_notMem found
        exact free (closing same ▸ known)
      · intro b member
        obtain ⟨c, known, rfl⟩ := List.mem_map.mp member
        exact (within c known).lower
    have ports : PortOk read := by
      cases suffix with
      | nil =>
          obtain rfl := Option.some.inj portRead
          intro value member
          cases member
      | cons b digits =>
          simp only [parsePortSuffix, Option.bind_eq_bind, Option.bind_eq_some_iff, guard_eq_some,
            exists_const, Option.some.injEq] at portRead
          obtain ⟨-, value, parsed, rfl⟩ := portRead
          intro value' member
          cases member
          exact parsePort_eq_some parsed
    exact ⟨normal, ports, fun _ => .inl bracket, fun _ => okay⟩
  next noBracket =>
    split at h
    next found =>
      obtain ⟨name, same, rfl⟩ := normalizeRegisteredHost_eq_some h
      have written : registeredName authority = authority := by rw [registeredName, found]
      rw [written]
      refine ⟨.name name, ?_, same.trans (or_iff_right noBracket).symm⟩
      intro value member
      cases member
    next name digits found =>
      simp only [Option.bind_eq_bind, Option.bind_eq_some_iff, guard_eq_some, exists_const] at h
      obtain ⟨-, value, parsed, registered⟩ := h
      obtain ⟨name', same, rfl⟩ := normalizeRegisteredHost_eq_some registered
      have written : registeredName authority = name := by rw [registeredName, found]
      rw [written]
      refine ⟨.name name', ?_, same.trans (or_iff_right noBracket).symm⟩
      intro value' member
      cases member
      exact parsePort_eq_some parsed

/-! ## Whole URIs -/

theorem splitHttps_eq_some {uri authority path : Bytes}
    (h : splitHttps uri = some (authority, path))
    (visible : asciiUri uri = true) (single : cut (ascii "@") authority = none) :
    ∀ b ∈ authority, Visible b := by
  simp only [splitHttps, Option.bind_eq_bind, Option.bind_eq_some_iff, guard_eq_some, exists_const,
    Option.some.injEq, Prod.exists, Prod.mk.injEq] at h
  obtain ⟨scheme, rest, found, -, noQuery, -, rfl, -⟩ := h
  have whole := cut_eq_some found
  have printable := (Bool.and_eq_true_iff.mp visible).2
  have queryFree : 0x3F ∉ rest ∧ 0x23 ∉ rest := by
    have any : containsAny rest [0x3F, 0x23] = false := noQuery
    simp only [containsAny, List.any_cons, List.any_nil, Bool.or_eq_false_iff,
      Option.isSome_eq_false_iff, Option.isNone_iff_eq_none, cut_singleton_eq_none] at any
    exact ⟨any.1, any.2.1⟩
  have parts : (∀ b ∈ (splitAuthorityPath rest).1, b ∈ rest) ∧
      0x2F ∉ (splitAuthorityPath rest).1 := by
    rw [splitAuthorityPath]
    cases slash : cut (ascii "/") rest with
    | none => exact ⟨fun b member => member, cut_singleton_eq_none.mp slash⟩
    | some found =>
        refine ⟨fun b member => ?_, cut_singleton_notMem slash⟩
        rw [cut_eq_some slash]
        simp [member]
  intro b member
  have inRest := parts.1 b member
  refine ⟨?_, ?_⟩
  · have inUri : b ∈ uri := by
      rw [whole]
      simp [inRest]
    exact List.all_eq_true.mp printable b inUri
  · have at' : 0x40 ∉ (splitAuthorityPath rest).1 := cut_singleton_eq_none.mp single
    have reserved : ascii "/?#@" = [0x2F, 0x3F, 0x23, 0x40] := rfl
    rw [reserved]
    simp only [List.mem_cons, List.not_mem_nil, or_false, not_or]
    refine ⟨?_, ?_, ?_, ?_⟩ <;> rintro rfl
    · exact parts.2 member
    · exact queryFree.1 inRest
    · exact queryFree.2 inRest
    · exact at' member

/-- A URI in normal form is taken apart where it was put together. -/
theorem splitHttps_normal {authority path : Bytes} (visible : ∀ b ∈ authority, Visible b)
    (nonempty : authority ≠ []) (normal : UriPath.NormalPath path) :
    splitHttps (ascii "https://" ++ (authority ++ path)) = some (authority, path) := by
  have scheme : cut (ascii "://") (ascii "https://" ++ (authority ++ path)) =
      some (ascii "https", authority ++ path) := rfl
  have https : asciiDowncase (ascii "https") = ascii "https" := by decide
  have reserved : ∀ c ∈ ascii "/?#@", c ∉ authority := fun c known member =>
    (visible c member).2 known
  have slash : cut (ascii "/") (authority ++ path) = some (authority, path.drop 1) := by
    obtain ⟨rest, rfl⟩ := normal.head
    exact cut_singleton_append _ (reserved 0x2F (by decide))
  have among : ∀ c ∈ ascii "?#", c ∈ ascii "/?#@" := by decide +kernel
  have query : ∀ c ∈ ascii "?#", c ∉ authority ++ path := by
    intro c known member
    rcases List.mem_append.mp member with host | path
    · exact reserved c (among c known) host
    · exact (visible_of_pathByte (normal.bytes c path)).2 known
  have noQuery : containsAny (authority ++ path) (ascii "?#") = false := by
    rw [containsAny, List.any_eq_false]
    intro c known
    rw [cut_singleton_eq_none.mpr (query c known)]
    decide
  have parts : splitAuthorityPath (authority ++ path) = (authority, path) := by
    obtain ⟨rest, rfl⟩ := normal.head
    rw [splitAuthorityPath, slash]
    rfl
  simp [splitHttps, scheme, https, noQuery, parts, nonempty, guard]

/-- What an accepted URI becomes. -/
theorem normalize_eq_some {uri n : Bytes} {limits : Limits} (h : normalize uri limits = some n) :
    ∃ bounds host port path, Bounds.coerce limits = some bounds ∧ n.length ≤ bounds .uriBytes ∧
      NormalHost host ∧ PortOk port ∧ UriPath.NormalPath path ∧ n = buildUri host port path ∧
      (HostOk host ↔ keepsHost uri = true) := by
  simp only [normalize, normalizeAuthority, Option.bind_eq_bind, Option.bind_eq_some_iff,
    guard_eq_some, exists_const, Option.some.injEq, Prod.exists] at h
  obtain ⟨bounds, coerced, -, printable, authority, rawPath, split, host, port, ⟨single, parsed⟩,
    path, pathRead, short, rfl⟩ := h
  have visible := splitHttps_eq_some split printable single
  obtain ⟨normal, ports, keeps⟩ := parseHostPort_eq_some visible parsed
  refine ⟨bounds, host, port, path, coerced, short, normal, ports,
    UriPath.normalPath_of_normalize pathRead, rfl, ?_⟩
  rw [keeps, keepsHost, split]
  simp

/-- A URI in normal form is its own, unless its host has come to look like an address. -/
theorem normalize_buildUri {host path : Bytes} {port : Option Nat} {limits : Limits}
    {bounds : Bounds} (coerced : Bounds.coerce limits = some bounds) (normal : NormalHost host)
    (ports : PortOk port) (normalPath : UriPath.NormalPath path)
    (short : (buildUri host port path).length ≤ bounds .uriBytes) :
    normalize (buildUri host port path) limits =
      if HostOk host then some (buildUri host port path) else none := by
  have visible : ∀ b ∈ host ++ portText port, Visible b := by
    rw [List.forall_mem_append]
    exact ⟨normal.visible, visible_portText port⟩
  have nonempty : host ++ portText port ≠ [] := fun empty =>
    normal.nonempty (List.append_eq_nil_iff.mp empty).1
  have whole := buildUri_eq host port path
  have split : splitHttps (buildUri host port path) = some (host ++ portText port, path) := by
    rw [whole]
    exact splitHttps_normal visible nonempty normalPath
  have printable : asciiUri (buildUri host port path) = true := by
    have scheme : ∀ b ∈ ascii "https://", within 0x21 0x7E b = true := by decide +kernel
    have all : ∀ b ∈ buildUri host port path, within 0x21 0x7E b = true := by
      rw [whole, List.forall_mem_append, List.forall_mem_append]
      exact ⟨scheme, fun b member => (visible b member).1,
        fun b member => (visible_of_pathByte (normalPath.bytes b member)).1⟩
    have notEmpty : buildUri host port path ≠ [] := by
      rw [whole]
      exact List.append_ne_nil_of_left_ne_nil (by decide) _
    simp only [asciiUri, notEmpty, ne_eq, not_false_eq_true, decide_true, Bool.true_and]
    exact List.all_eq_true.mpr all
  have single : cut (ascii "@") (host ++ portText port) = none :=
    cut_singleton_eq_none.mpr fun member => (visible _ member).2 (by decide)
  have authority : normalizeAuthority (host ++ portText port) =
      if HostOk host then some (host, keptPort port) else none := by
    rw [normalizeAuthority, single]
    exact normal.parseHostPort ports
  simp only [normalize, coerced, short, printable, split, authority, Option.bind_eq_bind,
    Option.bind_some, guard_true, Option.pure_def]
  split
  · simp [normalPath.normalize, buildUri_keptPort, short, guard]
  · rfl

/-- A normalized URI is normalized to itself exactly when the host it was read from
does not come to look like an address that is none. -/
theorem normalize_again_iff {uri n : Bytes} {limits : Limits} (h : normalize uri limits = some n) :
    normalize n limits = some n ↔ keepsHost uri = true := by
  obtain ⟨bounds, host, port, path, coerced, short, normal, ports, normalPath, rfl, keeps⟩ :=
    normalize_eq_some h
  rw [normalize_buildUri coerced normal ports normalPath short, ← keeps]
  split
  next okay => simp [okay]
  next wrong => simp [wrong]

theorem normalize_again_iff_sample :
    normalize (ascii "HTTPS://[::1]:443") [] = some (ascii "https://[::1]/") ∧
      (normalize (ascii "https://[::1]/") [] = some (ascii "https://[::1]/") ↔
        keepsHost (ascii "HTTPS://[::1]:443") = true) :=
  ⟨by decide, normalize_again_iff (by decide)⟩

/-- The escaped dot is decoded, and the name it leaves is refused as an address. -/
theorem normalize_twice_refused :
    ¬ ∀ (uri : Bytes) (limits : Limits) (n : Bytes), normalize uri limits = some n →
      normalize n limits = some n := by
  intro always
  have again := always (ascii "https://1%2E2/") [] (ascii "https://1.2/") (by decide +kernel)
  revert again
  decide +kernel

end Uri

end BoundedAuthority.V1
