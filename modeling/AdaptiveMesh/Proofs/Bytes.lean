import AdaptiveMesh.Bits
import AdaptiveMesh.Bytes
import AdaptiveMesh.Proofs.Except

/-!
# What a decoder accepts

A decoder of numbers succeeds exactly on the written form of what it answers, with whatever bytes
behind it, so every record has one written form. All a decoder can fail with is the end of the
bytes.
-/

namespace AdaptiveMesh

namespace Bytes

@[simp] theorem length_ofNat (width n : Nat) : (ofNat width n).length = width := by
  induction width generalizing n with
  | zero => rfl
  | succ width ih => rw [ofNat, List.length_cons, ih]

theorem length_ofNats (width : Nat) (ns : List Nat) :
    (ofNats width ns).length = 8 + ns.length * width := by
  simp [ofNats, List.length_flatMap]

end Bytes

namespace Decoder

variable {α β : Type}

theorem bind_eq_ok_iff {x : Decoder α} {f : α → Decoder β} {bytes rest : Bytes} {b : β} :
    (x >>= f) bytes = .ok (b, rest) ↔
      ∃ a mid, x bytes = .ok (a, mid) ∧ f a mid = .ok (b, rest) := by
  change (x bytes >>= fun r => f r.1 r.2) = _ ↔ _
  rw [AdaptiveMesh.bind_eq_ok_iff, Prod.exists]

theorem pure_eq_ok_iff {a b : α} {bytes rest : Bytes} :
    (pure a : Decoder α) bytes = .ok (b, rest) ↔ a = b ∧ bytes = rest := by
  change Except.ok (a, bytes) = _ ↔ _
  rw [Except.ok.injEq, Prod.mk.injEq]

/-! ## Running out of bytes -/

/-- The only way to fail is that the bytes end. -/
def FailsAtEnd (x : Decoder α) : Prop :=
  ∀ bytes error, x bytes = .error error → error = .endOfStream

theorem failsAtEnd_pure (a : α) : FailsAtEnd (pure a) := by
  intro bytes error h
  change Except.ok (a, bytes) = .error error at h
  contradiction

theorem FailsAtEnd.bind {x : Decoder α} {f : α → Decoder β} (hx : FailsAtEnd x)
    (hf : ∀ a, FailsAtEnd (f a)) : FailsAtEnd (x >>= f) := by
  intro bytes error h
  change (x bytes >>= fun r => f r.1 r.2) = _ at h
  cases hr : x bytes with
  | error e =>
    rw [hr] at h
    exact hx bytes error (hr.trans (congrArg Except.error (Except.error.inj h)))
  | ok r =>
    rw [hr] at h
    exact hf r.1 r.2 error h

theorem failsAtEnd_byte : FailsAtEnd byte := by
  intro bytes error h
  cases bytes with
  | nil => exact (Except.error.inj h).symm
  | cons b rest => contradiction

theorem failsAtEnd_nat (width : Nat) : FailsAtEnd (nat width) := by
  induction width with
  | zero => exact failsAtEnd_pure 0
  | succ width ih => exact failsAtEnd_byte.bind fun _ => ih.bind fun _ => failsAtEnd_pure _

theorem failsAtEnd_natsOfCount (width count : Nat) : FailsAtEnd (natsOfCount width count) := by
  induction count with
  | zero => exact failsAtEnd_pure []
  | succ count ih =>
    exact (failsAtEnd_nat width).bind fun _ => ih.bind fun _ => failsAtEnd_pure _

theorem failsAtEnd_nats (width : Nat) : FailsAtEnd (nats width) :=
  (failsAtEnd_nat 8).bind fun count => failsAtEnd_natsOfCount width count

/-! ## Numbers -/

theorem byte_eq_ok_iff {bytes rest : Bytes} {b : UInt8} :
    byte bytes = .ok (b, rest) ↔ bytes = b :: rest := by
  cases bytes <;> simp [byte]

theorem nat_eq_ok_iff {width : Nat} {bytes rest : Bytes} {n : Nat} :
    nat width bytes = .ok (n, rest) ↔ n < 256 ^ width ∧ bytes = Bytes.ofNat width n ++ rest := by
  induction width generalizing bytes rest n with
  | zero =>
    rw [nat, pure_eq_ok_iff, Nat.pow_zero, Nat.lt_one_iff]
    simp [Bytes.ofNat, eq_comm]
  | succ width ih =>
    simp only [nat, bind_eq_ok_iff, pure_eq_ok_iff, byte_eq_ok_iff, ih, Bytes.ofNat, Nat.pow_succ]
    constructor
    · rintro ⟨low, _, rfl, high, _, ⟨hhigh, rfl⟩, rfl, rfl⟩
      have hlow := low.toNat_lt
      have hdiv : (low.toNat + 256 * high) / 256 = high := by omega
      have hmod : UInt8.ofNat (low.toNat + 256 * high) = low := by
        apply UInt8.toNat_inj.1
        rw [UInt8.toNat_ofNat']
        omega
      rw [hdiv, hmod]
      exact ⟨by omega, rfl⟩
    · rintro ⟨hn, rfl⟩
      refine ⟨UInt8.ofNat n, _, rfl, n / 256, rest, ⟨by omega, rfl⟩, ?_, rfl⟩
      rw [UInt8.toNat_ofNat']
      omega

theorem natsOfCount_eq_ok_iff {width count : Nat} {bytes rest : Bytes} {ns : List Nat} :
    natsOfCount width count bytes = .ok (ns, rest) ↔
      (ns.length = count ∧ ∀ n ∈ ns, n < 256 ^ width) ∧
        bytes = ns.flatMap (Bytes.ofNat width) ++ rest := by
  induction count generalizing bytes rest ns with
  | zero =>
    rw [natsOfCount, pure_eq_ok_iff, List.length_eq_zero_iff]
    constructor
    · rintro ⟨rfl, rfl⟩
      simp
    · rintro ⟨⟨rfl, -⟩, rfl⟩
      simp
  | succ count ih =>
    simp only [natsOfCount, bind_eq_ok_iff, pure_eq_ok_iff, nat_eq_ok_iff, ih]
    constructor
    · rintro ⟨n, _, ⟨hn, rfl⟩, ns, _, ⟨⟨hlen, hns⟩, rfl⟩, rfl, rfl⟩
      refine ⟨⟨congrArg (· + 1) hlen, List.forall_mem_cons.2 ⟨hn, hns⟩⟩, ?_⟩
      rw [List.flatMap_cons, List.append_assoc]
    · rintro ⟨⟨hlen, hns⟩, rfl⟩
      cases ns with
      | nil => contradiction
      | cons n ns =>
        rw [List.forall_mem_cons] at hns
        refine ⟨n, _, ⟨hns.1, ?_⟩, ns, rest, ⟨⟨Nat.succ.inj hlen, hns.2⟩, rfl⟩, rfl, rfl⟩
        rw [List.flatMap_cons, List.append_assoc]

theorem nats_eq_ok_iff {width : Nat} {bytes rest : Bytes} {ns : List Nat} :
    nats width bytes = .ok (ns, rest) ↔
      (ns.length < 256 ^ 8 ∧ ∀ n ∈ ns, n < 256 ^ width) ∧
        bytes = Bytes.ofNats width ns ++ rest := by
  simp only [nats, bind_eq_ok_iff, nat_eq_ok_iff, natsOfCount_eq_ok_iff, Bytes.ofNats]
  constructor
  · rintro ⟨_, _, ⟨hcount, rfl⟩, ⟨rfl, hns⟩, rfl⟩
    exact ⟨⟨hcount, hns⟩, (List.append_assoc _ _ _).symm⟩
  · rintro ⟨⟨hcount, hns⟩, rfl⟩
    exact ⟨_, _, ⟨hcount, List.append_assoc _ _ _⟩, ⟨rfl, hns⟩, rfl⟩

end Decoder

end AdaptiveMesh
