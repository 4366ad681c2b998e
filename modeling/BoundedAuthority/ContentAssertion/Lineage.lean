import BoundedAuthority.ContentAssertion.Codec
import BoundedAuthority.V1.Platform
import BoundedAuthority.Wire.Linked

/-!
# Lineages of content assertions

`verify_successor/3` compares two facts.  Over a list of facts, each a successor of the
one before, the comparisons add up to one history (`consistent_of_lineage`): one
context, generations in steps of one, each naming the digest of the one before.

An assertion that verifies is read in one way whatever the ceilings of its verifier, so
its digest fixes its generation and the digest it names.  Two verified histories from
the first generation that end in one digest are the same (`lineages_agree`).
-/

namespace BoundedAuthority.ContentAssertion

open Wire JsonValue V1

variable {otp : Otp}

/-! ## One reading of an assertion -/

namespace Codec

section

variable {lower bounds : Bounds} (le : lower.Le bounds)

include le

theorem decodeClaims_below (claims : ClosedMap) :
    Below (decodeClaims claims lower) (decodeClaims claims bounds) := by
  have digest := ClosedMap.digest_below le claims
  refine Below.bind (Below.refl _) fun jti _ => Below.bind (Below.refl _) fun iss _ => ?_
  refine Below.bind (Below.refl _) fun aud _ => Below.bind (Below.refl _) fun sub _ => ?_
  refine Below.bind (Below.refl _) fun profile _ => Below.bind (digest _) fun profileDigest _ => ?_
  exact Below.bind (digest _) fun contentDigest _ => Below.bind (digest _) fun prev _ =>
    Below.refl _

theorem validClaims_mono {keyId : Bytes} {value : Claims}
    (h : validClaims otp keyId value lower = true) : validClaims otp keyId value bounds = true := by
  simp only [validClaims, Bool.and_eq_true, List.all_eq_true] at h ⊢
  obtain ⟨⟨⟨⟨⟨⟨⟨key, texts⟩, digests⟩, numbers⟩, gen⟩, genesis⟩, issued⟩, window⟩ := h
  exact ⟨⟨⟨⟨⟨⟨⟨validKeyId_mono le key, fun text ht => validIdentifier_mono le (texts text ht)⟩,
    digests⟩, fun number hn => validTime_mono le (numbers number hn)⟩, gen⟩, genesis⟩, issued⟩,
    window⟩

theorem parse_below (compact : Bytes) :
    Below (parse otp compact lower) (parse otp compact bounds) := by
  refine Below.bind (openSigned_below le _ _ compact) fun opened _ => ?_
  refine Below.bind (decodeClaims_below le _) fun claims _ => ?_
  exact Below.guard (validClaims_mono le) fun _ => Below.refl _

end

/-- Whatever the ceilings, an assertion is parsed in one way. -/
theorem parse_unique {compact : Bytes} {a b : Bounds} {x y : ParsedAssertion}
    (hx : parse otp compact a = some x) (hy : parse otp compact b = some y) : x = y :=
  Below.agree (parse_below a.le_maximum compact) (parse_below b.le_maximum compact) hx hy

/-- What the parser checks of the claims it returns. -/
theorem validClaims_of_parse {compact : Bytes} {bounds : Bounds} {parsed : ParsedAssertion}
    (h : parse otp compact bounds = some parsed) :
    validClaims otp parsed.attestorKeyId parsed.toClaims bounds = true := by
  simp only [parse, Option.bind_eq_bind, Option.bind_eq_some_iff, guard_eq_some, exists_const,
    Option.some.injEq] at h
  obtain ⟨opened, -, claims, -, valid, rfl⟩ := h
  exact valid

/-- The first generation is the one that names no digest. -/
theorem genesis_of_validClaims {keyId : Bytes} {value : Claims} {bounds : Bounds}
    (h : validClaims otp keyId value bounds = true) : value.prev = zeroHash ↔ value.gen = 1 := by
  simp only [validClaims, Bool.and_eq_true] at h
  have genesis : (value.gen == 1) = (value.prev == zeroHash) := by simpa using h.1.1.2
  constructor
  · intro zero
    rw [zero, beq_self_eq_true] at genesis
    exact eq_of_beq genesis
  · intro one
    rw [one, beq_self_eq_true] at genesis
    exact eq_of_beq genesis.symm

end Codec

/-! ## Verified assertions -/

/-- An assertion with the facts its verifier returns. -/
structure Verified (otp : Otp) where
  compact : Bytes
  expected : ExpectedContentAssertion
  facts : ContentAssertionFacts
  verified : Codec.verify otp compact expected = some facts

namespace Verified

/-- The claims are what the assertion is parsed to, and the digest is that of its bytes. -/
theorem parsed (x : Verified otp) :
    ∃ bounds parsed, Codec.parse otp x.compact bounds = some parsed ∧
    x.facts.toClaims = parsed.toClaims ∧ x.facts.digest = otp.sha256 x.compact := by
  have verified := x.verified
  simp only [Codec.verify, Option.bind_eq_bind, Option.bind_eq_some_iff, guard_eq_some,
    exists_const, Option.some.injEq] at verified
  obtain ⟨bounds, -, -, -, parsed, parses, -, -, -, -, _, -, facts⟩ := verified
  exact ⟨bounds, parsed, parses, by rw [← facts], by rw [← facts]⟩

/-- The bytes of an assertion fix its claims. -/
theorem claims_of_compact {x y : Verified otp} (same : x.compact = y.compact) :
    x.facts.toClaims = y.facts.toClaims := by
  obtain ⟨_, parsed, parses, claims, -⟩ := x.parsed
  obtain ⟨_, parsed', parses', claims', -⟩ := y.parsed
  rw [← same] at parses'
  rw [claims, claims', Codec.parse_unique parses parses']

theorem genesis (x : Verified otp) : x.facts.prev = zeroHash ↔ x.facts.gen = 1 := by
  obtain ⟨_, parsed, parses, claims, -⟩ := x.parsed
  rw [claims]
  exact Codec.genesis_of_validClaims (Codec.validClaims_of_parse parses)

/-- An assertion as a record that names the one before it. -/
def naming (otp : Otp) : Linked.Naming (Verified otp) Bytes Bytes where
  link x := x.facts.digest
  prior x := x.facts.prev
  rank x := x.facts.gen
  content x := x.compact

end Verified

/-! ## Lineages -/

/-- Facts of which each is a successor of the one before. -/
def Lineage (otp : Otp) (limits : Limits) (facts : List ContentAssertionFacts) : Prop :=
  facts.IsChain fun previous next => Codec.verifySuccessor otp previous next limits = some ()

/-- The context the facts of a lineage share. -/
def sameContext (f g : ContentAssertionFacts) : Prop :=
  f.iss = g.iss ∧ f.aud = g.aud ∧ f.sub = g.sub ∧ f.profile = g.profile ∧
    f.profileDigest = g.profileDigest

/-- One fact is a successor of another one. -/
structure Succeeds (previous next : ContentAssertionFacts) : Prop where
  context : sameContext previous next
  gen : next.gen = previous.gen + 1
  prev : next.prev = previous.digest
  iat : previous.iat ≤ next.iat
  genesis : previous.prev = zeroHash ↔ previous.gen = 1
  genesis' : next.prev = zeroHash ↔ next.gen = 1

theorem succeeds_of_verifySuccessor {limits : Limits} {previous next : ContentAssertionFacts}
    (h : Codec.verifySuccessor otp previous next limits = some ()) : Succeeds previous next := by
  simp only [Codec.verifySuccessor, Option.bind_eq_bind, Option.bind_eq_some_iff, guard_eq_some,
    exists_const, FixedBytes.equal_iff] at h
  obtain ⟨bounds, -, ⟨valid, valid'⟩, ⟨iss, aud, sub, profile⟩, digest, gen, prev, iat, -⟩ := h
  simp only [Codec.validFacts, Bool.and_eq_true] at valid valid'
  exact
    { context := ⟨iss, aud, sub, profile, digest⟩
      gen := gen
      prev := prev
      iat := iat
      genesis := Codec.genesis_of_validClaims valid.2
      genesis' := Codec.genesis_of_validClaims valid'.2 }

/-- What holds over a whole history of facts. -/
structure Consistent (facts : List ContentAssertionFacts) : Prop where
  context : facts.Pairwise sameContext
  gen : ∀ (i : Nat) first f, facts[0]? = some first → facts[i]? = some f → f.gen = first.gen + i
  prev : ∀ (i : Nat) f g, facts[i]? = some f → facts[i + 1]? = some g → g.prev = f.digest
  iat : facts.Pairwise fun f g => f.iat ≤ g.iat

variable {limits : Limits} {facts : List ContentAssertionFacts}

theorem sameContext.trans {f g h : ContentAssertionFacts} (left : sameContext f g)
    (right : sameContext g h) : sameContext f h :=
  ⟨left.1.trans right.1, left.2.1.trans right.2.1, left.2.2.1.trans right.2.2.1,
    left.2.2.2.1.trans right.2.2.2.1, left.2.2.2.2.trans right.2.2.2.2⟩

/-- A lineage is consistent; the step is a successor put in front. -/
theorem consistent_of_succeeds : ∀ {facts : List ContentAssertionFacts},
    facts.IsChain Succeeds → Consistent facts
  | [], _ => ⟨.nil, by simp, by simp, .nil⟩
  | [f], _ => by
      refine ⟨List.pairwise_singleton _ _, ?_, ?_, List.pairwise_singleton _ _⟩
      · intro i first g hf hg
        cases i with
        | zero =>
            rw [hf, Option.some.injEq] at hg
            simp [hg]
        | succ i => cases hg
      · intro i _ g _ hg
        cases hg
  | f :: g :: rest, chain => by
      obtain ⟨step, chain⟩ := List.isChain_cons_cons.mp chain
      have ih := consistent_of_succeeds chain
      refine ⟨List.pairwise_cons.mpr ⟨fun h hh => ?_, ih.context⟩, ?_, ?_,
        List.pairwise_cons.mpr ⟨fun h hh => ?_, ih.iat⟩⟩
      · rcases List.mem_cons.mp hh with rfl | hh
        · exact step.context
        · exact step.context.trans ((List.pairwise_cons.mp ih.context).1 h hh)
      · intro i first h hf hh
        obtain rfl := Option.some.inj hf
        cases i with
        | zero =>
            obtain rfl := Option.some.inj hh
            simp
        | succ i =>
            rw [ih.gen i g h rfl hh, step.gen]
            push_cast
            omega
      · intro i h k hh hk
        cases i with
        | zero =>
            obtain rfl := Option.some.inj hh
            obtain rfl := Option.some.inj hk
            exact step.prev
        | succ i => exact ih.prev i h k hh hk
      · rcases List.mem_cons.mp hh with rfl | hh
        · exact step.iat
        · exact step.iat.trans ((List.pairwise_cons.mp ih.iat).1 h hh)

theorem consistent_of_lineage (h : Lineage otp limits facts) : Consistent facts :=
  consistent_of_succeeds (h.imp fun _ _ => succeeds_of_verifySuccessor)

/-- In a history of two facts or more, each is in a comparison. -/
theorem genesis_of_lineage : ∀ {facts : List ContentAssertionFacts}, Lineage otp limits facts →
    2 ≤ facts.length → ∀ f ∈ facts, f.prev = zeroHash ↔ f.gen = 1
  | f :: g :: rest, chain, _, h, hh => by
      obtain ⟨step, chain⟩ := List.isChain_cons_cons.mp chain
      have succeeds := succeeds_of_verifySuccessor step
      rcases List.mem_cons.mp hh with rfl | hh
      · exact succeeds.genesis
      · rcases List.mem_cons.mp hh with rfl | hh
        · exact succeeds.genesis'
        · cases rest with
          | nil => cases hh
          | cons k rest => exact genesis_of_lineage chain (by simp) h (List.mem_cons_of_mem _ hh)

/-- Verified histories from one generation that end in one digest are the same, or two of
their assertions collide. -/
theorem lineages_agree {limits limits' : Limits} {xs ys : List (Verified otp)} {first : Int}
    (left : Lineage otp limits (xs.map Verified.facts))
    (right : Lineage otp limits' (ys.map Verified.facts))
    (start : xs.head?.map (fun x => x.facts.gen) = some first)
    (start' : ys.head?.map (fun y => y.facts.gen) = some first)
    (last : xs.getLast?.map (fun x => x.facts.digest) = ys.getLast?.map fun y => y.facts.digest) :
    xs.map Verified.compact = ys.map Verified.compact ∨
      ∃ x ∈ xs, ∃ y ∈ ys, otp.Collide x.compact y.compact := by
  have follows : ∀ {limits} {zs : List (Verified otp)}, Lineage otp limits (zs.map Verified.facts) →
      zs.IsChain (Verified.naming otp).Follows := fun h =>
    (List.isChain_map Verified.facts |>.mp h).imp fun x y step =>
      have succeeds := succeeds_of_verifySuccessor step
      ⟨succeeds.prev, succeeds.gen⟩
  have same : ∀ {x y : Verified otp},
      (Verified.naming otp).link x = (Verified.naming otp).link y →
        (Verified.naming otp).content x = (Verified.naming otp).content y ∨
          otp.Collide x.compact y.compact := by
    intro x y link
    obtain ⟨_, _, -, -, digest⟩ := x.parsed
    obtain ⟨_, _, -, -, digest'⟩ := y.parsed
    exact otp.eq_or_collide (digest.symm.trans (link.trans digest'))
  refine (Verified.naming otp).determines same ?_ (follows left) (follows right) start start' last
  · intro x y same
    have claims := Verified.claims_of_compact same
    exact ⟨congrArg Claims.prev claims, congrArg Claims.gen claims⟩

/-- Facts that no comparison is about need not come from a verifier. -/
def unverified : ContentAssertionFacts where
  jti := []
  iss := []
  aud := []
  sub := []
  profile := []
  profileDigest := zeroHash
  contentDigest := zeroHash
  prev := zeroHash
  gen := 2
  iat := 0
  nbf := 0
  exp := 0
  version := 1
  attestorKeyId := []
  attestorKeyFingerprint := zeroHash
  digest := zeroHash
  verification := .signatureAndWindow
  trust := .notEvaluated

theorem unverified_not_genesis : ¬ ∀ (otp : Otp) (limits : Limits) facts, facts ≠ [] →
    Lineage otp limits facts → ∀ f ∈ facts, f.prev = zeroHash ↔ f.gen = 1 := by
  intro all
  have two := (all (Otp.listed []) [] [unverified] (List.cons_ne_nil _ _) (.singleton _) unverified
    List.mem_cons_self).mp rfl
  exact absurd two (by decide)

/-- A lineage is one history, in which a fact that was compared or verified names no
digest exactly in the first generation; and verified histories that end in one digest
are the same, or two of their assertions collide. -/
theorem histories (otp : Otp) :
    (∀ limits facts, facts ≠ [] → Lineage otp limits facts → Consistent facts ∧
      ∀ f ∈ facts, 2 ≤ facts.length ∨ (∃ x : Verified otp, x.facts = f) →
        (f.prev = zeroHash ↔ f.gen = 1)) ∧
    ∀ limits limits' (xs ys : List (Verified otp)),
      Lineage otp limits (xs.map Verified.facts) → Lineage otp limits' (ys.map Verified.facts) →
      xs.head?.map (fun x => x.facts.gen) = some 1 → ys.head?.map (fun y => y.facts.gen) = some 1 →
      xs.getLast?.map (fun x => x.facts.digest) = ys.getLast?.map (fun y => y.facts.digest) →
      xs.map Verified.compact = ys.map Verified.compact ∨
        ∃ x ∈ xs, ∃ y ∈ ys, otp.Collide x.compact y.compact := by
  refine ⟨fun limits facts _ lineage => ⟨consistent_of_lineage lineage, ?_⟩,
    fun _ _ _ _ => lineages_agree⟩
  rintro f hf (long | ⟨x, rfl⟩)
  · exact genesis_of_lineage lineage long f hf
  · exact x.genesis

namespace Sample

def attestorKey : Bytes :=
  bigEndian 32 0x8A88E3DD7409F195FD52DB2D3CBA5D72CA6709BF1D94121BF3748801B40F6F5C

def first : Assertion where
  jti := ascii "a1"
  iss := ascii "i"
  aud := ascii "b"
  sub := ascii "s"
  profile := ascii "p"
  profileDigest := List.replicate 32 1
  contentDigest := List.replicate 32 2
  prev := zeroHash
  gen := 1
  iat := 1
  nbf := 1
  exp := 9
  attestorKeyId := ascii "k0"

def firstSignature : Bytes :=
  bigEndian 32 0x35E671BB2E745A158CD41AB96122AB7EFF072CEE57DC8041A6E0F2AD7C2B81D6 ++
    bigEndian 32 0xECA1AE5885EB7BD3D5C739247748CE7606DEB9FF840DDAA46BA0EBE004E7E004

def second : Assertion :=
  { first with
    jti := ascii "a2"
    contentDigest := List.replicate 32 3
    prev := bigEndian 32 0xB1DA212589949DB6A5904534A5B302FF7522234F6D6258B9B80D54A9CCA6C2E6
    gen := 2 }

def secondSignature : Bytes :=
  bigEndian 32 0xA17DA31E4B41B27059D4B98BD5A44D019E7D0D848915BB94F92915DD8D987474 ++
    bigEndian 32 0x6961D76966C4CF8347DA3EA8576D25D061922743B61D0030E01B44E7EE9A0100

def input (assertion : Assertion) : SigningInput :=
  (Codec.signingInput (Otp.listed []) assertion []).getD ⟨.contentAssertion, [], [], []⟩

def compact (assertion : Assertion) (signature : Bytes) : Bytes :=
  (Codec.assemble (Otp.listed []) (input assertion) signature []).getD []

def platform : Otp := Otp.listed
  [((input first).message, firstSignature, attestorKey),
    ((input second).message, secondSignature, attestorKey)]

def expected (assertion : Assertion) : ExpectedContentAssertion where
  attestor := ⟨ascii "k0", attestorKey, 0, none⟩
  issuer := ascii "i"
  audience := ascii "b"
  subject := ascii "s"
  profile := ascii "p"
  profileDigest := List.replicate 32 1
  contentDigest := assertion.contentDigest
  now := 5
  bounds := []

/-- The facts a verifier of the sample assertion returns. -/
def factsOf (assertion : Assertion) (signature : Bytes) : ContentAssertionFacts :=
  { assertion.toClaims with
    version := 1
    attestorKeyId := assertion.attestorKeyId
    attestorKeyFingerprint := Jwk.thumbprintOf platform attestorKey
    digest := platform.sha256 (compact assertion signature)
    verification := .signatureAndWindow
    trust := .notEvaluated }

def verifiedFirst : Verified platform where
  compact := compact first firstSignature
  expected := expected first
  facts := factsOf first firstSignature
  verified := by decide +kernel

def verifiedSecond : Verified platform where
  compact := compact second secondSignature
  expected := expected second
  facts := factsOf second secondSignature
  verified := by decide +kernel

theorem lineage : Lineage platform [] ([verifiedFirst, verifiedSecond].map Verified.facts) := by
  have step : Codec.verifySuccessor platform (factsOf first firstSignature)
      (factsOf second secondSignature) [] = some () := by decide +kernel
  exact List.isChain_cons_cons.mpr ⟨step, .singleton _⟩

end Sample

open Sample in
theorem histories_sample :
    Consistent ([verifiedFirst, verifiedSecond].map Verified.facts) ∧
    ([verifiedFirst, verifiedSecond].map Verified.compact =
        [verifiedFirst, verifiedSecond].map Verified.compact ∨
      ∃ x ∈ [verifiedFirst, verifiedSecond], ∃ y ∈ [verifiedFirst, verifiedSecond],
        platform.Collide x.compact y.compact) :=
  ⟨((histories platform).1 [] _ (List.cons_ne_nil _ _) lineage).1,
    (histories platform).2 [] [] _ _ lineage lineage rfl rfl rfl⟩

end BoundedAuthority.ContentAssertion
