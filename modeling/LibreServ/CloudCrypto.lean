import Mathlib

/-! The cryptography of the cloud backups (`backup/cloud/crypto.rs`). The primitives come from libraries
and are parameters here, with the laws the backups rest on; the layouts around them are the code's. That
ids do not collide is no law of the primitives: where it matters it is assumed of the contents at hand. -/

namespace LibreServ.Cloud

abbrev Bytes := List UInt8

/-- A `[u8; N]`. -/
abbrev Fixed (n : ℕ) := { bytes : Bytes // bytes.length = n }

abbrev Bytes32 := Fixed 32

/-- `N` copies of a byte. -/
def Fixed.fill (n : ℕ) (b : UInt8) : Fixed n := ⟨List.replicate n b, List.length_replicate⟩

/-- `try_into` from a `Vec<u8>`. -/
def toFixed (n : ℕ) (bytes : Bytes) : Option (Fixed n) :=
  if h : bytes.length = n then some ⟨bytes, h⟩ else none

theorem toFixed_eq_some {n : ℕ} {bytes : Bytes} {b : Fixed n} (h : toFixed n bytes = some b) : b.val = bytes := by
  unfold toFixed at h
  split at h
  · exact congrArg Subtype.val (Option.some.inj h).symm
  · cases h

def nonceLen : ℕ := 24
def tagLen : ℕ := 16
def sealPublicLen : ℕ := 32 + 1184
def sealSecretLen : ℕ := 32 + 64
def sigPublicLen : ℕ := 32 + 1952
def sigLen : ℕ := 64 + 3309

abbrev SealPublic := Fixed sealPublicLen
abbrev SealSecret := Fixed sealSecretLen
abbrev SigPublic := Fixed sigPublicLen
abbrev SigBytes := Fixed sigLen

/-- The primitives. `sealCopy` takes its random bytes from the caller; a signing key is its seed. -/
structure Crypto where
  aeadEncrypt : Bytes32 → Fixed nonceLen → Bytes → Bytes → Bytes
  aeadDecrypt : Bytes32 → Fixed nonceLen → Bytes → Bytes → Option Bytes
  sealPublic : SealSecret → SealPublic
  checkPublicKey : SealPublic → Bool
  sealCopy : Bytes → SealPublic → Bytes → Bytes → Bytes
  openCopy : SealSecret → Bytes → Bytes → Option Bytes
  sigPublic : Bytes32 → SigPublic
  sign : Bytes32 → Bytes → SigBytes
  verifySig : SigPublic → Bytes → SigBytes → Bool
  hmacSha256 : Bytes32 → Bytes → Bytes32
  sha256 : Bytes → Bytes32
  aead_length (k : Bytes32) (n : Fixed nonceLen) (aad m : Bytes) :
    tagLen ≤ (aeadEncrypt k n aad m).length
  aead_decrypt (k : Bytes32) (n : Fixed nonceLen) (aad m : Bytes) :
    aeadDecrypt k n aad (aeadEncrypt k n aad m) = some m
  aead_key {k k' : Bytes32} {n : Fixed nonceLen} {aad aad' m m' : Bytes} :
    aeadDecrypt k' n aad' (aeadEncrypt k n aad m) = some m' → k' = k
  sealCopy_length (rand : Bytes) (recipient : SealPublic) (aad m : Bytes) :
    0 < (sealCopy rand recipient aad m).length
  check_sealPublic (secret : SealSecret) : checkPublicKey (sealPublic secret) = true
  openCopy_sealCopy (secret : SealSecret) (rand aad m : Bytes) :
    openCopy secret aad (sealCopy rand (sealPublic secret) aad m) = some m
  verify_sign (seed : Bytes32) (m : Bytes) : verifySig (sigPublic seed) m (sign seed m) = true

namespace Crypto

variable (c : Crypto)

/-- Layout: nonce ‖ ciphertext and tag. -/
def encrypt (k : Bytes32) (nonce : Fixed nonceLen) (aad m : Bytes) : Bytes :=
  nonce.val ++ c.aeadEncrypt k nonce aad m

def decrypt (k : Bytes32) (aad sealed : Bytes) : Except String Bytes :=
  if sealed.length < nonceLen + tagLen then
    .error "This encrypted data is too short to be valid."
  else
    match toFixed nonceLen (sealed.take nonceLen) with
    | none => .error "This encrypted data is too short to be valid."
    | some nonce =>
      match c.aeadDecrypt k nonce aad (sealed.drop nonceLen) with
      | some m => .ok m
      | none => .error "This encrypted data could not be opened. It was changed, or the key is wrong."

/-- Seal to a public key, once the key is found usable. -/
def sealTo (rand : Bytes) (recipient : SealPublic) (aad m : Bytes) : Except String Bytes :=
  if c.checkPublicKey recipient then .ok (c.sealCopy rand recipient aad m)
  else .error "This recovery key is not valid. Set up the recovery phrase again."

/-- Equal chunks in one backup get one id. -/
def chunkId (dedupKey : Bytes32) (chunk : Bytes) : Bytes32 := c.hmacSha256 dedupKey chunk

/-- The SHA-256 of the pack's ciphertext. -/
def packId (ciphertext : Bytes) : Bytes32 := c.sha256 ciphertext

theorem toFixed_val {n : ℕ} (b : Fixed n) : toFixed n b.val = some b := dif_pos b.property

theorem decrypt_encrypt_eq (k k' : Bytes32) (nonce : Fixed nonceLen) (aad aad' m : Bytes) :
    c.decrypt k' aad' (c.encrypt k nonce aad m) =
      match c.aeadDecrypt k' nonce aad' (c.aeadEncrypt k nonce aad m) with
      | some m' => .ok m'
      | none => .error
          "This encrypted data could not be opened. It was changed, or the key is wrong." := by
  have hlen : nonce.val.length = nonceLen := nonce.property
  have htag := c.aead_length k nonce aad m
  have hlong : ¬ (c.encrypt k nonce aad m).length < nonceLen + tagLen := by
    simp only [encrypt, List.length_append]
    omega
  have htake : (c.encrypt k nonce aad m).take nonceLen = nonce.val := by
    exact List.take_left' hlen
  have hdrop : (c.encrypt k nonce aad m).drop nonceLen = c.aeadEncrypt k nonce aad m := by
    exact List.drop_left' hlen
  rw [decrypt, if_neg hlong, htake, hdrop, toFixed_val]

theorem decrypt_encrypt (k : Bytes32) (nonce : Fixed nonceLen) (aad m : Bytes) :
    c.decrypt k aad (c.encrypt k nonce aad m) = .ok m := by
  rw [decrypt_encrypt_eq, c.aead_decrypt]

end Crypto

/-! ### Signed data -/

/-- The big-endian bytes of a `u32`. -/
def be32 (n : ℕ) : Bytes :=
  [UInt8.ofNat (n / 2 ^ 24), UInt8.ofNat (n / 2 ^ 16), UInt8.ofNat (n / 2 ^ 8), UInt8.ofNat n]

def pushLenPrefixed (out bytes : Bytes) : Bytes := out ++ be32 bytes.length ++ bytes

/-- Each name and value gets a length in front. -/
def canonical (fields : List (String × Bytes)) : Bytes :=
  fields.foldl (fun out f => pushLenPrefixed (pushLenPrefixed out f.1.toUTF8.toList) f.2) []

/-- The bytes a signature covers, so that a signature for one purpose never passes for another. -/
def signedBytes (domain : String) (m : Bytes) : Bytes :=
  "luna-sig-v2".toUTF8.toList ++ [0] ++ domain.toUTF8.toList ++ [0] ++ m

/-- Luna's cloud identity: its id and its signing seed. -/
structure Identity where
  lunaId : String
  seed : Bytes32

/-! ### A stand-in

Nothing is secret in it: it carries keys and messages in the open, and its hash is the message read as a
number. Concrete runs are evaluated with it. -/

def toyHash (m : Bytes) : Bytes32 :=
  let n := m.foldl (fun n b => (n * 257 + b.toNat + 1) % 2 ^ 256) 0
  ⟨(List.range 32).map fun k => UInt8.ofNat (n / 256 ^ (31 - k) % 256), by
    rw [List.length_map, List.length_range]⟩

def toyCrypto : Crypto where
  aeadEncrypt k _ _ m := k.val ++ m
  aeadDecrypt k _ _ sealed := if sealed.take 32 = k.val then some (sealed.drop 32) else none
  sealPublic secret := ⟨secret.val ++ List.replicate 1120 0, by
    rw [List.length_append, secret.property, List.length_replicate]; rfl⟩
  checkPublicKey _ := true
  sealCopy _ recipient _ m := recipient.val ++ m
  openCopy secret _ sealed :=
    if sealed.take sealPublicLen = secret.val ++ List.replicate 1120 0 then
      some (sealed.drop sealPublicLen)
    else none
  sigPublic seed := ⟨seed.val ++ List.replicate 1952 0, by
    rw [List.length_append, seed.property, List.length_replicate]; rfl⟩
  sign _ _ := Fixed.fill sigLen 0
  verifySig _ _ sig := sig = Fixed.fill sigLen 0
  hmacSha256 k m := toyHash (k.val ++ m)
  sha256 m := toyHash m
  aead_length k n aad m := by
    rw [List.length_append, k.property, tagLen]
    omega
  aead_decrypt k n aad m := by
    rw [List.take_left' k.property, List.drop_left' k.property, if_pos rfl]
  aead_key {k _ _ _ _ _ _} h := by
    rw [List.take_left' k.property] at h
    split at h
    · rename_i heq
      exact Subtype.ext heq.symm
    · cases h
  sealCopy_length rand recipient aad m := by
    rw [List.length_append, recipient.property, sealPublicLen]
    omega
  check_sealPublic _ := rfl
  openCopy_sealCopy secret rand aad m := by
    have hlen : (secret.val ++ List.replicate 1120 0).length = sealPublicLen := by
      rw [List.length_append, secret.property, List.length_replicate]
      rfl
    rw [List.take_left' hlen, List.drop_left' hlen, if_pos rfl]
  verify_sign _ _ := decide_eq_true rfl

end LibreServ.Cloud
