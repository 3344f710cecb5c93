import EventStream.Machine

/-! API keys, what they grant, and the store that holds them (`auth.rs`).

Rate limits are kept in a key but not enforced here. Names, topics and ids are lists of
characters; a secret is looked up by its hash, and the hash function is a parameter. -/
namespace EventStream.Auth

abbrev Name := List Char

inductive AclAction where
  | read
  | write
  | admin
  deriving DecidableEq, Repr

structure AclRule where
  action : AclAction
  topicPrefix : Name
  deriving DecidableEq, Repr

/-- Characters that separate the components of a hierarchical topic name. -/
def nameSeparators : List Char := ['.', '-', '_']

/-- Whether an ACL prefix covers a topic: the topic of that name, and those below it. -/
def prefixMatches (p topic : Name) : Bool :=
  if p = ['*'] then true
  else if p = [] ∨ ¬ p.isPrefixOf topic then false
  else if topic.length = p.length ∨ p.getLast?.any (· ∈ nameSeparators) then true
  else (topic.drop p.length).head?.any (· ∈ nameSeparators)

/-- A write grant implies read, an admin grant everything. -/
def AclAction.implies : AclAction → AclAction → Bool
  | .admin, _ => true
  | .write, .read => true
  | a, b => a = b

def AclRule.matchesTopic (r : AclRule) (action : AclAction) (topic : Name) : Bool :=
  r.action.implies action && prefixMatches r.topicPrefix topic

def validatePrefix (p : Name) : Except String Unit :=
  if p = ['*'] then .ok ()
  else if p = [] ∨ 200 < (p.map Char.utf8Size).sum then
    .error "topic_prefix must be '*' or 1..=200 characters (an empty prefix is not allowed)"
  else if ¬ p.all (fun c => c.isAlphanum ∨ c ∈ nameSeparators) then
    .error "topic_prefix may only contain ASCII alphanumerics, '_', '-', '.' (or be '*')"
  else .ok ()

structure ApiKey where
  keyId : Name
  name : String
  acls : List AclRule
  produceBytesPerSec : Option UInt32
  consumeBytesPerSec : Option UInt32
  createdAtMs : Int64
  disabled : Bool
  deriving DecidableEq, Repr

def ApiKey.can (k : ApiKey) (action : AclAction) (topic : Name) : Bool :=
  !k.disabled && k.acls.any (·.matchesTopic action topic)

def ApiKey.isAdmin (k : ApiKey) : Bool :=
  !k.disabled && k.acls.any fun r => r.action = .admin && r.topicPrefix = ['*']

structure CreateKeyRequest where
  name : String
  acls : List AclRule
  produceBytesPerSec : Option UInt32
  consumeBytesPerSec : Option UInt32
  deriving DecidableEq, Repr

def CreateKeyRequest.validate (req : CreateKeyRequest) : Except String Unit := do
  if req.name.utf8ByteSize = 0 ∨ 200 < req.name.utf8ByteSize then
    throw "name must be 1..=200 characters"
  if 100 < req.acls.length then
    throw "a key may carry at most 100 ACL rules"
  req.acls.forM fun a => validatePrefix a.topicPrefix

def hexDigit (n : Nat) : Char := (Nat.toDigits 16 n).headD '0'

def hexEncode (bytes : Bytes) : Name :=
  bytes.flatMap fun b => [hexDigit (b.toNat / 16), hexDigit (b.toNat % 16)]

/-- The short id of a key, derived from the hash of its secret. -/
def keyIdOf (hash : Bytes) : Name := "key_".toList ++ hexEncode (hash.take 6)

/-- The key that `create_key` builds for a secret with this hash. -/
def CreateKeyRequest.build (req : CreateKeyRequest) (hash : Bytes) (now : Int64) : ApiKey :=
  { keyId := keyIdOf hash
    name := req.name
    acls := req.acls
    produceBytesPerSec := req.produceBytesPerSec
    consumeBytesPerSec := req.consumeBytesPerSec
    createdAtMs := now
    disabled := false }

structure KeyStore where
  keys : Name → Option ApiKey
  byHash : Bytes → Option Name
  /-- Bumped on every revocation. The counter of the source is this number modulo `2 ^ 64`. -/
  revocations : Nat

/-- What a connection compares with the value it has captured. -/
def KeyStore.revocationEpoch (s : KeyStore) : Nat := s.revocations % 2 ^ 64

/-- The current state of a key, if it is still enabled. -/
def KeyStore.getEnabled (s : KeyStore) (keyId : Name) : Option ApiKey :=
  (s.keys keyId).filter (!·.disabled)

end EventStream.Auth
