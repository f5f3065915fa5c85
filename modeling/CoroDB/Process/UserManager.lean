import CoroDB.Common.Sha256
import CoroDB.Framework.KeyMap
import CoroDB.Process.Statement
import CoroDB.Sql.Literals

/-!
# Users and their passwords

`UserManager` keeps a text for each user that holds the iteration count, the salt and the derived key,
and reads it back when a user logs in.
-/

namespace CoroDB

open Framework Ascii

section Crypto

/-- `std::string::resize`. -/
def resize (n : Nat) (s : Bytes) : Bytes := (s ++ List.replicate (n - s.length) 0).take n

def xorBytes (a b : Bytes) : Bytes := List.zipWith (· ^^^ ·) a b

def hmacSha256 (key data : Bytes) : Bytes :=
  let k := resize 64 (if 64 < key.length then sha256 key else key)
  let ipad := xorBytes (List.replicate 64 0x36) k
  let opad := xorBytes (List.replicate 64 0x5c) k
  sha256 (opad ++ sha256 (ipad ++ data))

/-- One pass of the inner loop, on the last hash and the sum so far. -/
def pbkdf2Round (password : Bytes) (ut : Bytes × Bytes) : Bytes × Bytes :=
  let u := hmacSha256 password ut.1
  (u, xorBytes ut.2 u)

def pbkdf2Block (password salt : Bytes) (iterations block : Nat) : Bytes :=
  let u := hmacSha256 password (salt ++ Sha256.wordBytes (UInt32.ofNat block))
  ((pbkdf2Round password)^[iterations - 1] (u, u)).2

theorem length_sha256 (data : Bytes) : (sha256 data).length = 32 := rfl

theorem length_pbkdf2Rounds (password : Bytes) (n : Nat) {u t : Bytes} (ht : t.length = 32) :
    ((pbkdf2Round password)^[n] (u, t)).2.length = 32 := by
  induction n generalizing u t with
  | zero => exact ht
  | succ n ih =>
    rw [Function.iterate_succ_apply]
    exact ih (by simp [xorBytes, ht, hmacSha256, length_sha256])

theorem length_pbkdf2Block (password salt : Bytes) (iterations block : Nat) :
    (pbkdf2Block password salt iterations block).length = 32 :=
  length_pbkdf2Rounds password _ (length_sha256 _)

def pbkdf2Blocks (password salt : Bytes) (iterations dkLen block : Nat) (out : Bytes) : Bytes :=
  if out.length < dkLen then
    pbkdf2Blocks password salt iterations dkLen (block + 1)
      (out ++ pbkdf2Block password salt iterations block)
  else out
termination_by dkLen - out.length
decreasing_by
  rw [List.length_append, length_pbkdf2Block]
  omega

def pbkdf2HmacSha256 (password salt : Bytes) (iterations dkLen : Nat) : Except String Bytes :=
  if iterations = 0 then .error "PBKDF2 iterations must be >= 1"
  else .ok (resize dkLen (pbkdf2Blocks password salt iterations dkLen 1 []))

def hexDigit (d : UInt8) : UInt8 := (ascii "0123456789abcdef").getD d.toNat 0

def toHex (raw : Bytes) : Bytes := raw.flatMap fun c : UInt8 => [hexDigit (c >>> 4), hexDigit (c &&& 0x0F)]

example : toHex (pbkdf2Block (ascii "password") (ascii "salt") 1 1) =
    ascii "120fb6cffcf8b32c43e7225256c4f837a86548c92ccc35480805987cb70be17b" := by
  decide +kernel

def constantTimeEqual (a b : Bytes) : Bool :=
  a.length == b.length && (xorBytes a b).foldl (· ||| ·) 0 == 0

end Crypto

/-- The settings that the user manager reads. -/
structure AuthConfig where
  authSalt : Bytes
  authPbkdf2Iterations : Nat := 100000

namespace AuthConfig

def Accepts (n : Int64) : Prop := 1000 ≤ n.toInt ∧ n.toInt ≤ 10000000

instance decidableAccepts (n : Int64) : Decidable (Accepts n) := inferInstanceAs (Decidable (_ ∧ _))

/-- The key `auth.pbkdf2_iterations`, given the number that its value was read as. -/
def applyIterations (config : AuthConfig) : Option Int64 → AuthConfig
  | none => config
  | some n => if Accepts n then { config with authPbkdf2Iterations := n.toInt.toNat } else config

end AuthConfig

abbrev dollar : UInt8 := 36

def kPrefix : Bytes := ascii "pbkdf2-sha256$"

def hashPassword (config : AuthConfig) (salt password : Bytes) : Except String Bytes := do
  let dk ← pbkdf2HmacSha256 password salt config.authPbkdf2Iterations 32
  return kPrefix ++ decimal config.authPbkdf2Iterations ++ [dollar] ++ toHex salt ++ [dollar] ++
    toHex dk

def legacyHashPassword (config : AuthConfig) (password : Bytes) : Bytes :=
  let h : UInt64 := (config.authSalt ++ password).foldl
    (fun h c => (h ^^^ c.toUInt64) * 1099511628211) 14695981039346656037
  (List.range 16).map fun i => hexDigit (UInt8.ofNat (h.toNat >>> (60 - 4 * i) % 16))

/-- The text before the first `c` and the text after it. -/
def cutAt (c : UInt8) : Bytes → Option (Bytes × Bytes)
  | [] => none
  | b :: rest => if b = c then some ([], rest) else (cutAt c rest).map fun p => (b :: p.1, p.2)

/-- The parts of the text at the first two separators. -/
def splitBody (body : Bytes) : Option (Bytes × Bytes × Bytes) :=
  (cutAt dollar body).bind fun p => (cutAt dollar p.2).map fun r => (p.1, r)

/-- `std::stoull`: blanks, a sign, and the leading digits. -/
def stoull (text : Bytes) : Option Nat :=
  let text := text.dropWhile isSpace
  let negative := text.head? = some minus
  let digits := (if negative ∨ text.head? = some 43 then text.tail else text).takeWhile isDigit
  let n := digitsValue digits
  if digits = [] ∨ 2 ^ 64 ≤ n then none else some (if negative then (2 ^ 64 - n) % 2 ^ 64 else n)

def nibble (c : UInt8) : Option UInt8 :=
  if 48 ≤ c && c ≤ 57 then some (c - 48)
  else if 97 ≤ c && c ≤ 102 then some (c - 97 + 10)
  else if 65 ≤ c && c ≤ 70 then some (c - 65 + 10)
  else none

/-- The loop of `hex_decode`, or `none` where it meets a byte that is no digit. -/
def hexPairs : Bytes → Option Bytes
  | hi :: lo :: rest =>
    (nibble hi).bind fun h => (nibble lo).bind fun l => (hexPairs rest).map ((h <<< 4 ||| l) :: ·)
  | _ => some []

def hexDecode (hex : Bytes) : Bytes := (hexPairs hex).getD []

/-- What `verify_password` does with the three parts of the text. -/
def verifyParts (iterText saltHex dkHex password : Bytes) : Except String Bool :=
  match stoull iterText with
  | none => .ok false
  | some parsed =>
    if parsed = 0 ∨ 10000000 < parsed then .ok false
    else if saltHex.length ≠ 32 ∨ dkHex.length ≠ 64 then .ok false
    else if hexDecode saltHex = [] then .ok false
    else
      (pbkdf2HmacSha256 password (hexDecode saltHex) parsed 32).map fun dk =>
        constantTimeEqual (toHex dk) dkHex

def verifyPassword (config : AuthConfig) (stored password : Bytes) : Except String Bool :=
  if kPrefix <+: stored then
    match splitBody (stored.drop kPrefix.length) with
    | none => .ok false
    | some (iterText, saltHex, dkHex) => verifyParts iterText saltHex dkHex password
  else .ok (constantTimeEqual stored (legacyHashPassword config password))

structure UserEntry where
  hash : Bytes
  role : UserRole := .readWrite

structure UserManager where
  users : KeyMap (KeyEq.ofDecidableEq Bytes) UserEntry

namespace UserManager

/-- `add_user` with the salt that the generator gave. -/
def addUser (m : UserManager) (config : AuthConfig) (salt username password : Bytes)
    (role : UserRole) : Except String UserManager :=
  (hashPassword config salt password).map fun hash => ⟨m.users.assign username ⟨hash, role⟩⟩

def authenticate (m : UserManager) (config : AuthConfig) (username password : Bytes) :
    Except String Bool :=
  match m.users.get? username with
  | none => .ok false
  | some entry => verifyPassword config entry.hash password

end UserManager

section Hex

theorem hexDigit_halves (c : UInt8) :
    nibble (hexDigit (c >>> 4)) = some (c >>> 4) ∧ nibble (hexDigit (c &&& 0x0F)) = some (c &&& 0x0F) ∧
      (c >>> 4) <<< 4 ||| (c &&& 0x0F) = c ∧
      hexDigit (c >>> 4) ≠ dollar ∧ hexDigit (c &&& 0x0F) ≠ dollar := by
  obtain ⟨⟨n⟩⟩ := c
  revert n
  decide +kernel

theorem hexPairs_toHex (raw : Bytes) : hexPairs (toHex raw) = some raw := by
  induction raw with
  | nil => rfl
  | cons c raw ih =>
    obtain ⟨hhigh, hlow, hjoin, -⟩ := hexDigit_halves c
    change hexPairs (hexDigit (c >>> 4) :: hexDigit (c &&& 0x0F) :: toHex raw) = _
    simp [hexPairs, hhigh, hlow, hjoin, ih]

theorem hexDecode_toHex (raw : Bytes) : hexDecode (toHex raw) = raw := by
  simp [hexDecode, hexPairs_toHex]

theorem toHex_injective : Function.Injective toHex :=
  Function.LeftInverse.injective hexDecode_toHex

@[simp]
theorem length_toHex (raw : Bytes) : (toHex raw).length = 2 * raw.length := by
  simp [toHex, Nat.mul_comm]

theorem dollar_not_mem_toHex (raw : Bytes) : dollar ∉ toHex raw := by
  intro h
  obtain ⟨c, -, hc⟩ := List.mem_flatMap.mp h
  obtain ⟨-, -, -, hhigh, hlow⟩ := hexDigit_halves c
  simp [hhigh.symm, hlow.symm] at hc

end Hex

section Text

theorem foldl_or_eq_zero (bytes : Bytes) (diff : UInt8) :
    bytes.foldl (· ||| ·) diff = 0 ↔ diff = 0 ∧ ∀ b ∈ bytes, b = 0 := by
  induction bytes generalizing diff with
  | nil => simp
  | cons b bytes ih => simp [ih, and_assoc]

theorem xorBytes_eq_zero {a b : Bytes} (h : a.length = b.length) :
    (∀ x ∈ xorBytes a b, x = 0) ↔ a = b := by
  induction a generalizing b with
  | nil => simp [xorBytes, List.length_eq_zero_iff.mp h.symm]
  | cons x a ih =>
    obtain ⟨y, b, rfl⟩ := List.exists_cons_of_length_eq_add_one h.symm
    have ih := ih (Nat.succ.inj h)
    simp only [xorBytes] at ih
    simp [xorBytes, ih]

theorem constantTimeEqual_iff {a b : Bytes} : constantTimeEqual a b = true ↔ a = b := by
  rw [constantTimeEqual, Bool.and_eq_true, beq_iff_eq, beq_iff_eq, foldl_or_eq_zero]
  constructor
  · rintro ⟨hlength, -, h⟩
    exact (xorBytes_eq_zero hlength).mp h
  · rintro rfl
    exact ⟨rfl, rfl, (xorBytes_eq_zero rfl).mpr rfl⟩

theorem cutAt_append {c : UInt8} {front : Bytes} (h : c ∉ front) (rest : Bytes) :
    cutAt c (front ++ c :: rest) = some (front, rest) := by
  induction front with
  | nil => simp [cutAt]
  | cons b front ih =>
    rw [List.mem_cons, not_or] at h
    obtain ⟨hb, hfront⟩ := h
    simp [cutAt, Ne.symm hb, ih hfront]

theorem splitBody_append {a b : Bytes} (ha : dollar ∉ a) (hb : dollar ∉ b) (c : Bytes) :
    splitBody (a ++ dollar :: (b ++ dollar :: c)) = some (a, b, c) := by
  simp [splitBody, cutAt_append ha, cutAt_append hb]

theorem dollar_not_mem_decimal (n : Nat) : dollar ∉ decimal n :=
  fun h => absurd (isDigit_of_mem_decimal h) (by decide)

theorem stoull_decimal {n : Nat} (hn : n < 2 ^ 64) : stoull (decimal n) = some n := by
  obtain ⟨c, digits, hc⟩ := List.exists_cons_of_ne_nil (decimal_ne_nil n)
  have hdigits : ∀ b ∈ c :: digits, isDigit b = true := fun b hb =>
    isDigit_of_mem_decimal (hc ▸ hb)
  have hdigit := hdigits c List.mem_cons_self
  obtain ⟨hspace, -, hminus, -⟩ := isDigit_spec hdigit
  have hplus : c ≠ 43 := by
    rintro rfl
    exact absurd hdigit (by decide)
  have hvalue : digitsValue (c :: digits) = n := by rw [← hc, digitsValue_decimal]
  rw [hc, stoull, List.dropWhile_cons_of_neg (by simp [hspace])]
  simpa [hminus, hplus, List.takeWhile_eq_self_iff.mpr hdigits, hvalue] using hn

end Text

section Verify

variable {config : AuthConfig} {salt p q : Bytes}

/-- The text that `hash_password` gives for a key. -/
def storedText (iterations : Nat) (salt dk : Bytes) : Bytes :=
  kPrefix ++ decimal iterations ++ [dollar] ++ toHex salt ++ [dollar] ++ toHex dk

theorem verifyPassword_storedText {iterations : Nat} (hpos : 0 < iterations)
    (hmax : iterations ≤ 10000000) (hsalt : salt.length = 16) {dk : Bytes} (hdk : dk.length = 32) :
    verifyPassword config (storedText iterations salt dk) q =
      (pbkdf2HmacSha256 q salt iterations 32).map fun key => constantTimeEqual (toHex key) (toHex dk) := by
  have hstored : storedText iterations salt dk =
      kPrefix ++ (decimal iterations ++ dollar :: (toHex salt ++ dollar :: toHex dk)) := by
    simp [storedText]
  have hne : salt ≠ [] := by
    rintro rfl
    cases hsalt
  rw [hstored, verifyPassword, if_pos (List.prefix_append _ _), List.drop_left,
    splitBody_append (dollar_not_mem_decimal iterations) (dollar_not_mem_toHex salt)]
  change verifyParts _ _ _ _ = _
  rw [verifyParts, stoull_decimal (by omega)]
  change ite _ _ _ = _
  rw [if_neg (by omega), if_neg (by simp [hsalt, hdk]), hexDecode_toHex, if_neg hne]

theorem exists_pbkdf2 {iterations : Nat} (h : 0 < iterations) (p salt : Bytes) (dkLen : Nat) :
    ∃ dk, pbkdf2HmacSha256 p salt iterations dkLen = .ok dk ∧ dk.length = dkLen := by
  refine ⟨_, if_neg (Nat.pos_iff_ne_zero.mp h), ?_⟩
  simp [resize]
  omega

theorem hashPassword_eq {dk : Bytes}
    (h : pbkdf2HmacSha256 p salt config.authPbkdf2Iterations 32 = .ok dk) :
    hashPassword config salt p = .ok (storedText config.authPbkdf2Iterations salt dk) := by
  rw [hashPassword, h]
  rfl

theorem verifyPassword_true_iff {iterations : Nat} (hpos : 0 < iterations)
    (hmax : iterations ≤ 10000000) (hsalt : salt.length = 16) {dk : Bytes} (hdk : dk.length = 32) :
    verifyPassword config (storedText iterations salt dk) q = .ok true ↔
      pbkdf2HmacSha256 q salt iterations 32 = .ok dk := by
  obtain ⟨key, hkey, -⟩ := exists_pbkdf2 hpos q salt 32
  rw [verifyPassword_storedText hpos hmax hsalt hdk, hkey]
  simp only [Except.map, Except.ok.injEq, constantTimeEqual_iff]
  exact toHex_injective.eq_iff

end Verify

namespace AuthConfig

theorem iterations_apply {n : Int64} (hn : Accepts n) (config : AuthConfig) :
    (config.applyIterations (some n)).authPbkdf2Iterations = n.toInt.toNat := by
  rw [applyIterations, if_pos hn]

end AuthConfig

namespace UserManager

theorem authenticate_addUser {n : Int64} (hn : AuthConfig.Accepts n) {salt : Bytes}
    (hsalt : salt.length = 16) (m : UserManager) (config : AuthConfig) (u p : Bytes)
    (role : UserRole) :
    ∃ m', m.addUser (config.applyIterations (some n)) salt u p role = .ok m' ∧
      ∀ config' q, m'.authenticate config' u q = .ok true ↔
        pbkdf2HmacSha256 q salt n.toInt.toNat 32 = pbkdf2HmacSha256 p salt n.toInt.toNat 32 := by
  obtain ⟨hlow, hhigh⟩ := id hn
  have hpos : 0 < n.toInt.toNat := by omega
  obtain ⟨dk, hdk, hlength⟩ := exists_pbkdf2 hpos p salt 32
  have hiter := AuthConfig.iterations_apply hn config
  have hhash := hashPassword_eq (hiter.symm ▸ hdk)
  rw [hiter] at hhash
  refine ⟨_, by rw [addUser, hhash]; rfl, fun config' q => ?_⟩
  rw [authenticate, KeyMap.get?_assign, if_pos (KeyEq.ofDecidableEq_eq.mpr rfl), hdk]
  exact verifyPassword_true_iff hpos (by omega) hsalt hlength

/-- A password that was set can be used, also after the iteration count was changed, and no password
with another key can. -/
theorem authenticate_set (m : UserManager) (config : AuthConfig) {n : Int64}
    (hn : AuthConfig.Accepts n) {salt : Bytes} (hsalt : salt.length = 16) (u p : Bytes)
    (role : UserRole) :
    ∃ m', m.addUser (config.applyIterations (some n)) salt u p role = .ok m' ∧
      (∀ values : List (Option Int64),
        m'.authenticate (values.foldl AuthConfig.applyIterations (config.applyIterations (some n)))
          u p = .ok true) ∧
      ∀ config' q, m'.authenticate config' u q = .ok true →
        pbkdf2HmacSha256 q salt n.toInt.toNat 32 = pbkdf2HmacSha256 p salt n.toInt.toNat 32 := by
  obtain ⟨m', hadd, h⟩ := authenticate_addUser hn hsalt m config u p role
  exact ⟨m', hadd, fun _ => (h _ p).mpr rfl, fun config' q => (h config' q).mp⟩

/-- The least accepted count and a salt of zeros. -/
theorem authenticate_thousand :
    ∃ m', (⟨KeyMap.empty⟩ : UserManager).addUser
        ((⟨[], 100000⟩ : AuthConfig).applyIterations (some 1000)) (List.replicate 16 0) (ascii "u")
        (ascii "p") .readWrite = .ok m' ∧
      m'.authenticate ⟨[], 1000⟩ (ascii "u") (ascii "p") = .ok true := by
  have hn : AuthConfig.Accepts 1000 := by decide
  have hsalt : (List.replicate 16 (0 : UInt8)).length = 16 := rfl
  obtain ⟨m', hadd, h, -⟩ := authenticate_set ⟨KeyMap.empty⟩ ⟨[], 100000⟩ hn hsalt (ascii "u")
    (ascii "p") .readWrite
  exact ⟨m', hadd, h []⟩

end UserManager

end CoroDB
