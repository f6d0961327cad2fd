-- Hybrid signatures (`pemrix-crypto`): a classical scheme with an optional post-quantum
-- one. The verifier asks the post-quantum scheme only about a component that is there.
import Pemrix.Canonical

open Std
open JsonForm (text struct_with_options)
open JsonForm.Fields (first last)

namespace Pemrix

/-! ## Signature schemes -/

structure PublicKey where
  bytes : Bytes
  deriving DecidableEq

structure SecretKey where
  bytes : Bytes
  deriving DecidableEq

structure Signature where
  bytes : Bytes
  deriving DecidableEq

instance : Inhabited Signature := ⟨⟨[]⟩⟩

structure KeyPair where
  public_key : PublicKey
  secret : SecretKey

inductive CryptoError where
  | VerificationFailed
  | InvalidKey
  | RngFailed
  | UnsupportedAlgorithm
  | HybridMismatch
  deriving DecidableEq

/-- The trait `SignatureScheme`, without the random keys. -/
structure SignatureScheme where
  sign : SecretKey → Bytes → Except CryptoError Signature
  verify : PublicKey → Bytes → Signature → Except CryptoError Unit
  algorithm_id : String

/-- What the scheme signs with a key pair, it accepts. -/
def SignatureScheme.VerifiesOwn (scheme : SignatureScheme) (keys : KeyPair) : Prop :=
  ∀ message signature, scheme.sign keys.secret message = .ok signature →
    scheme.verify keys.public_key message signature = .ok ()

/-! ## Hybrid signatures -/

structure HybridSignature where
  classical : Signature
  post_quantum : Option Signature
  classical_algorithm : String
  post_quantum_algorithm : Option String
  deriving DecidableEq

namespace HybridSignature

instance : Inhabited HybridSignature := ⟨⟨default, none, "", none⟩⟩

/-- The function `HybridSignature::classical`. -/
def of_classical (algorithm : String) (signature : Signature) : HybridSignature :=
  ⟨signature, none, algorithm, none⟩

def hybrid (classical_algorithm : String) (classical : Signature) (pq_algorithm : String)
    (post_quantum : Signature) : HybridSignature :=
  ⟨classical, some post_quantum, classical_algorithm, some pq_algorithm⟩

def is_post_quantum (h : HybridSignature) : Bool := h.post_quantum.isSome

/-- The conversion `impl From<HybridSignature> for Signature`. -/
def into_signature [Serde HybridSignature] (h : HybridSignature) : Signature := ⟨encode h⟩

/-- The conversion `impl From<Signature> for HybridSignature`. What does not parse is the
default value. -/
def from_signature [Serde HybridSignature] (s : Signature) : HybridSignature :=
  (decode s.bytes).getD default

end HybridSignature

structure HybridScheme where
  classical : SignatureScheme
  post_quantum : Option SignatureScheme

namespace HybridScheme

variable [Serde HybridSignature]

def new (classical : SignatureScheme) (post_quantum : Option SignatureScheme) : HybridScheme :=
  ⟨classical, post_quantum⟩

def sign (scheme : HybridScheme) (secret : SecretKey) (message : Bytes) :
    Except CryptoError Signature := do
  let classical_sig ← scheme.classical.sign secret message
  return (HybridSignature.of_classical scheme.classical.algorithm_id classical_sig).into_signature

def verify (scheme : HybridScheme) (public_key : PublicKey) (message : Bytes)
    (signature : Signature) : Except CryptoError Unit := do
  let hybrid := HybridSignature.from_signature signature
  scheme.classical.verify public_key message hybrid.classical
  if let (some pq, some pq_sig) := (scheme.post_quantum, hybrid.post_quantum) then
    pq.verify public_key message pq_sig
  return ()

/-- The scheme as a scheme of its own, `impl SignatureScheme for HybridScheme`. -/
def scheme (hybrid : HybridScheme) : SignatureScheme where
  sign := hybrid.sign
  verify := hybrid.verify
  algorithm_id := "hybrid"

end HybridScheme

namespace Forms

def signature : JsonForm Signature := bytes.via Signature.bytes (some ⟨·⟩) fun _ => rfl

def string : JsonForm String := text id some fun _ => rfl

def hybrid_signature : JsonForm HybridSignature :=
  (struct_with_options (first "classical" signature
    (first "post_quantum" (signature.option fun _ h => nomatch h)
    (first "classical_algorithm" string
    (last "post_quantum_algorithm" (string.option fun _ h => nomatch h)))))
    ["post_quantum", "post_quantum_algorithm"]).via
    (fun h => (h.classical, h.post_quantum, h.classical_algorithm, h.post_quantum_algorithm))
    (fun p => some ⟨p.1, p.2.1, p.2.2.1, p.2.2.2⟩) fun _ => rfl

end Forms

/-! ## What the verifier accepts -/

namespace HybridScheme

variable [Serde HybridSignature] {C P : SignatureScheme} {public_key : PublicKey} {message : Bytes}
  {signature : Signature}

theorem verify_of_refused {e : CryptoError}
    (hc : C.verify public_key message (HybridSignature.from_signature signature).classical =
      .error e) : (new C (some P)).verify public_key message signature = .error e := by
  unfold verify new
  dsimp only
  rw [hc]
  rfl

theorem verify_of_missing
    (hc : C.verify public_key message (HybridSignature.from_signature signature).classical = .ok ())
    (hpq : (HybridSignature.from_signature signature).post_quantum = none) :
    (new C (some P)).verify public_key message signature = .ok () := by
  unfold verify new
  dsimp only
  rw [hc, hpq]
  rfl

theorem verify_of_present {pq_sig : Signature}
    (hc : C.verify public_key message (HybridSignature.from_signature signature).classical = .ok ())
    (hpq : (HybridSignature.from_signature signature).post_quantum = some pq_sig) :
    (new C (some P)).verify public_key message signature =
      P.verify public_key message pq_sig := by
  unfold verify new
  dsimp only
  rw [hc, hpq]
  show (do P.verify public_key message pq_sig; return ()) = P.verify public_key message pq_sig
  cases P.verify public_key message pq_sig <;> rfl

/-- The classical component is accepted, and so is the post-quantum one if there is one. -/
theorem verify_eq_ok_iff :
    (new C (some P)).verify public_key message signature = .ok () ↔
      C.verify public_key message (HybridSignature.from_signature signature).classical = .ok () ∧
      ∀ pq_sig, (HybridSignature.from_signature signature).post_quantum = some pq_sig →
        P.verify public_key message pq_sig = .ok () := by
  rcases hc : C.verify public_key message (HybridSignature.from_signature signature).classical
    with e | u
  · rw [verify_of_refused hc]
    exact ⟨(nomatch ·), fun h => nomatch h.1⟩
  · rcases hpq : (HybridSignature.from_signature signature).post_quantum with _ | pq_sig
    · rw [verify_of_missing hc hpq]
      exact ⟨fun _ => ⟨rfl, fun _ h => nomatch h⟩, fun _ => rfl⟩
    · rw [verify_of_present hc hpq]
      exact ⟨fun h => ⟨rfl, fun _ heq => Option.some.inj heq ▸ h⟩, fun h => h.2 pq_sig rfl⟩

/-- Both components are there and accepted. -/
def AcceptsBoth (C P : SignatureScheme) (public_key : PublicKey) (message : Bytes)
    (h : HybridSignature) : Prop :=
  C.verify public_key message h.classical = .ok () ∧
    ∃ pq_sig, h.post_quantum = some pq_sig ∧ P.verify public_key message pq_sig = .ok ()

theorem from_into (hserde : ∀ h : HybridSignature, decode (encode h) = some h)
    (h : HybridSignature) : HybridSignature.from_signature h.into_signature = h := by
  unfold HybridSignature.from_signature HybridSignature.into_signature
  rw [hserde, Option.getD_some]

/-- A signature that is complete is accepted if both of its components are. -/
theorem verify_hybrid_iff (hserde : ∀ h : HybridSignature, decode (encode h) = some h)
    (classical_algorithm pq_algorithm : String) (classical_sig pq_sig : Signature) :
    (new C (some P)).verify public_key message
        (HybridSignature.hybrid classical_algorithm classical_sig pq_algorithm
          pq_sig).into_signature = .ok () ↔
      C.verify public_key message classical_sig = .ok () ∧
      P.verify public_key message pq_sig = .ok () := by
  rw [verify_eq_ok_iff, from_into hserde]
  exact and_congr_right fun _ => ⟨fun h => h pq_sig rfl, fun h _ heq => Option.some.inj heq ▸ h⟩

/-- The scheme accepts its own signatures if the classical one does. They are classical. -/
theorem verifiesOwn (hserde : ∀ h : HybridSignature, decode (encode h) = some h)
    {keys : KeyPair} (hC : C.VerifiesOwn keys) : (new C (some P)).scheme.VerifiesOwn keys := by
  intro message signature hsign
  obtain ⟨classical_sig, hclassical, rfl⟩ : ∃ classical_sig,
      C.sign keys.secret message = .ok classical_sig ∧
        (HybridSignature.of_classical C.algorithm_id classical_sig).into_signature = signature := by
    rcases hc : C.sign keys.secret message with e | classical_sig
    · have hnone : (new C (some P)).sign keys.secret message = .error e := by
        unfold sign new
        rw [hc]
        rfl
      cases hnone.symm.trans hsign
    · have hsome : (new C (some P)).sign keys.secret message =
          .ok (HybridSignature.of_classical C.algorithm_id classical_sig).into_signature := by
        unfold sign new
        rw [hc]
        rfl
      exact ⟨classical_sig, rfl, Except.ok.inj (hsome.symm.trans hsign)⟩
  show (new C (some P)).verify keys.public_key message _ = .ok ()
  rw [verify_eq_ok_iff, from_into hserde]
  exact ⟨hC message classical_sig hclassical, fun _ h => nomatch h⟩

/-- The verifier asks for both components unless it is given a classical one alone that the
classical scheme accepts. What the scheme signs itself is such a one, and accepted. -/
theorem hybrid_accepts_both_iff (hserde : ∀ h : HybridSignature, decode (encode h) = some h)
    (C P : SignatureScheme) :
    (∀ public_key message signature,
      let hybrid := HybridSignature.from_signature signature
      ((new C (some P)).verify public_key message signature = .ok () →
        AcceptsBoth C P public_key message hybrid) ↔
      (hybrid.is_post_quantum = true ∨ C.verify public_key message hybrid.classical ≠ .ok ())) ∧
    ∀ keys, C.VerifiesOwn keys → P.VerifiesOwn keys → (new C (some P)).scheme.VerifiesOwn keys := by
  refine ⟨?_, fun keys hC _ => verifiesOwn hserde hC⟩
  intro public_key message signature hybrid
  rw [verify_eq_ok_iff]
  constructor
  · intro haccepts
    by_contra hnot
    obtain ⟨hpq, hc⟩ := not_or.mp hnot
    -- Nothing is asked of the missing component.
    have hmissing : hybrid.post_quantum = none := by
      rw [← Option.not_isSome_iff_eq_none]
      exact hpq
    obtain ⟨-, pq_sig, hpresent, -⟩ := haccepts ⟨not_not.mp hc, fun _ h => by
      rw [hmissing] at h
      cases h⟩
    rw [hmissing] at hpresent
    cases hpresent
  · rintro hcond ⟨hc, hpq⟩
    rcases hcond with hpresent | hrefused
    · obtain ⟨pq_sig, hsome⟩ := Option.isSome_iff_exists.mp hpresent
      exact ⟨hc, pq_sig, hsome, hpq pq_sig hsome⟩
    · exact absurd hc hrefused

end HybridScheme

end Pemrix

namespace Pemrix.TwoSchemes

@[reducible] def serde : Serde HybridSignature := JsonForm.serde Forms.hybrid_signature

/-- A scheme with one key for both sides, which a signature repeats before the message. -/
def marked (mark : UInt8) : SignatureScheme where
  sign secret message := .ok ⟨mark :: secret.bytes ++ message⟩
  verify public_key message signature :=
    if signature.bytes = mark :: public_key.bytes ++ message then .ok ()
    else .error .VerificationFailed
  algorithm_id := "marked"

theorem marked_verifiesOwn (mark : UInt8) (key : Bytes) :
    (marked mark).VerifiesOwn ⟨⟨key⟩, ⟨key⟩⟩ := by
  rintro message _ ⟨⟩
  exact if_pos rfl

def scheme : HybridScheme := .new (marked 1) (some (marked 2))

/-- A signature with a wrong post-quantum component is refused, and accepted once the component
is taken out. -/
theorem component_can_be_left_out :
    letI := serde
    let forged := HybridSignature.hybrid "marked" ⟨[1, 7, 5]⟩ "marked" ⟨[]⟩
    let stripped := { forged with post_quantum := none }
    scheme.verify ⟨[7]⟩ [5] forged.into_signature = .error .VerificationFailed ∧
      scheme.verify ⟨[7]⟩ [5] stripped.into_signature = .ok () ∧
      ¬ HybridScheme.AcceptsBoth (marked 1) (marked 2) ⟨[7]⟩ [5]
        (.from_signature stripped.into_signature) := by
  let _ := serde
  intro forged stripped
  have hparsed := HybridScheme.from_into Forms.hybrid_signature.from_slice_to_vec stripped
  refine ⟨by decide +kernel, by decide +kernel, ?_⟩
  rintro ⟨-, pq_sig, hpresent, -⟩
  rw [hparsed] at hpresent
  cases hpresent

/-- A complete signature is asked for both components, and the own ones are accepted. -/
theorem hybrid_accepts_both_of_marked :
    letI := serde
    let complete := HybridSignature.hybrid "marked" ⟨[1, 7, 5]⟩ "marked" ⟨[2, 7, 5]⟩
    scheme.verify ⟨[7]⟩ [5] complete.into_signature = .ok () ∧
      HybridScheme.AcceptsBoth (marked 1) (marked 2) ⟨[7]⟩ [5]
        (.from_signature complete.into_signature) ∧
      scheme.scheme.VerifiesOwn ⟨⟨[7]⟩, ⟨[7]⟩⟩ := by
  let _ := serde
  intro complete
  obtain ⟨hboth, hown⟩ := HybridScheme.hybrid_accepts_both_iff
    Forms.hybrid_signature.from_slice_to_vec (marked 1) (marked 2)
  have haccepted : scheme.verify ⟨[7]⟩ [5] complete.into_signature = .ok () := by decide +kernel
  have hpresent : (HybridSignature.from_signature complete.into_signature).is_post_quantum = true :=
    by decide +kernel
  exact ⟨haccepted, (hboth _ _ _).mpr (.inl hpresent) haccepted,
    hown _ (marked_verifiesOwn 1 [7]) (marked_verifiesOwn 2 [7])⟩

end Pemrix.TwoSchemes
