import AuraRedis.Aura.Resp

/-!
# Texts the agent reads

The string helpers of the policy agent (`policy_agent.aura`): the fields of an INFO text and of a pin file,
and the policy hints with the bags that are made of them. `find-substr` is `none` where the source has -1.
-/

set_option autoImplicit false

namespace Agent

open Aura

/-- The loop of `find-substr`, which is at `i`, over what is left of the text. -/
def findFrom (pat : Bytes) : Bytes → Nat → Option Nat
  | [], _ => none
  | b :: s, i => if pat.isPrefixOf (b :: s) then some i else findFrom pat s (i + 1)

def findSubstr (s pat : Bytes) (start : Nat) : Option Nat := findFrom pat (s.drop start) start

/-- `(>= (find-substr s pat 0) 0)`. -/
def has (s : Bytes) (pat : String) : Bool := (findSubstr s (lit pat) 0).isSome

def infoGet (text key : Bytes) : Bytes :=
  match findSubstr text (key ++ lit ":") 0 with
  | none => []
  | some pos =>
    let start := pos + (key ++ lit ":").length
    match findSubstr text [10] start with
    | none => substring text start text.length
    | some stop => substring text start stop

def infoNum [Runtime] (text key : Bytes) : Int := (Runtime.stringToNumber (infoGet text key)).getD 0

def isBlank (b : UInt8) : Bool := b == 32 || b == 10 || b == 13 || b == 9

def trimWs (s : Bytes) : Bytes := ((s.dropWhile isBlank).reverse.dropWhile isBlank).reverse

/-- The last line `key=value` of the text. -/
def pinGet (text key : Bytes) : Bytes :=
  (text.splitOn 10).foldl
    (fun found line => if (key ++ lit "=").isPrefixOf line then line.drop (key ++ lit "=").length else found) []

def pad4 (n : Nat) : Bytes :=
  if n < 10 then lit "000" ++ Decimal.ofNat n
  else if n < 100 then lit "00" ++ Decimal.ofNat n
  else if n < 1000 then lit "0" ++ Decimal.ofNat n
  else Decimal.ofNat n

def errClosed (s : Bytes) : Bool := (lit "ERR").isPrefixOf s

/-! ## Policy hints -/

def profIsLfuFamily (pr : Bytes) : Bool :=
  has pr "lfu" || has pr "slru" || has pr "tinylfu" || has pr "zipf" || has pr "hot"

def profIsTtlNopin (pr : Bytes) : Bool := has pr "ttl_nopin"

def profIsSession (pr : Bytes) : Bool := has pr "session"

def profWantsTtlKernel (pr : Bytes) : Bool := profIsSession pr || profIsTtlNopin pr || has pr "ttl"

def bagForProfile (preferSlru : Bool) (pr : Bytes) : Bytes :=
  if profIsTtlNopin pr then lit "ttl_aware|flat"
  else if profIsSession pr || has pr "ttl_aware" || pr == lit "ttl" then lit "ttl_aware|flat|pin"
  else if profIsLfuFamily pr then if preferSlru then lit "slru|flat|pin" else lit "lfu|flat|pin"
  else if pr ≠ [] then pr ++ lit "|flat|pin"
  else []

def bagWantsPin (bag : Bytes) : Bool := has bag "pin"

/-- What is known of the prefixes that POLICY named, the first two of them. -/
structure Hints where
  policyHints : Bytes
  prefixPolicyOn : Bool
  prefixDeep : Bool
  pfx0 : Bytes
  pfx1 : Bytes
  prof0 : Bytes
  prof1 : Bytes
  bag0 : Bytes
  bag1 : Bytes
  prefixBagVersion : Nat
  deriving DecidableEq

def Hints.initial : Hints := ⟨[], false, false, [], [], [], [], [], [], 0⟩

namespace Hints

def refreshPrefixBags (preferSlru : Bool) (h : Hints) : Hints :=
  let b0 := bagForProfile preferSlru h.prof0
  let b1 := bagForProfile preferSlru h.prof1
  { h with
    bag0 := b0
    bag1 := b1
    prefixBagVersion :=
      if (b0 ≠ h.bag0 ∨ b1 ≠ h.bag1) ∧ h.prefixPolicyOn then h.prefixBagVersion + 1 else h.prefixBagVersion
    prefixDeep := h.prefixPolicyOn && (profIsLfuFamily h.prof0 || profIsLfuFamily h.prof1)
      && (profWantsTtlKernel h.prof0 || profWantsTtlKernel h.prof1) }

/-- One piece between semicolons, where `slot` have been taken. -/
def takePiece (h : Hints) (slot : Nat) (piece : Bytes) : Hints × Nat :=
  match findSubstr piece (lit "=") 0 with
  | none => (h, slot)
  | some peq =>
    let px := substring piece 0 peq
    let pr := substring piece (peq + 1) piece.length
    let h := { h with prefixPolicyOn := true }
    if slot = 0 then ({ h with pfx0 := px, prof0 := pr }, slot + 1)
    else if slot = 1 then ({ h with pfx1 := px, prof1 := pr }, slot + 1)
    else (h, slot + 1)

def parsePolicyHints (preferSlru : Bool) (h : Hints) (hints : Bytes) : Hints :=
  let h := { h with
    policyHints := hints, pfx0 := [], pfx1 := [], prof0 := [], prof1 := [], prefixPolicyOn := false, prefixDeep := false }
  if hints = [] then { h with bag0 := [], bag1 := [] }
  else (((hints.splitOn 59).foldl (fun hs piece => takePiece hs.1 hs.2 piece) (h, 0)).1).refreshPrefixBags preferSlru

def prefixHasSession (h : Hints) : Bool :=
  profIsSession h.prof0 || profIsSession h.prof1 || profWantsTtlKernel h.prof0 || profWantsTtlKernel h.prof1

def prefixHasZipf (h : Hints) : Bool := profIsLfuFamily h.prof0 || profIsLfuFamily h.prof1

def composePrefixChoice (preferSlru : Bool) (h : Hints) : Bytes :=
  let wantTtl := profWantsTtlKernel h.prof0 || profWantsTtlKernel h.prof1
  let wantLfu := profIsLfuFamily h.prof0 || profIsLfuFamily h.prof1
  let wantPin := bagWantsPin h.bag0 || bagWantsPin h.bag1
  if wantTtl && wantPin then lit "ttl_aware|flat|pin"
  else if wantTtl then lit "ttl_aware|flat"
  else if wantLfu && wantPin then if preferSlru then lit "slru|flat|pin" else lit "lfu|flat|pin"
  else if wantLfu then if preferSlru then lit "slru|flat" else lit "lfu|flat"
  else if wantPin then if preferSlru then lit "slru|flat|pin" else lit "lfu|flat|pin"
  else []

end Hints

/-! ## What a choice asks for -/

/-- The parts of a choice `evict|layout|pin`. -/
structure Choice where
  evName : Bytes
  lyName : Bytes
  wantPin : Bool
  deriving DecidableEq

def parseChoice (choice : Bytes) : Choice :=
  let parts := choice.splitOn 124
  ⟨parts[0]?.getD [], parts[1]?.getD [], parts[2]? == some (lit "pin")⟩

/-- `shadow-choice-kernel`. -/
def shadowChoiceKernel (c : Bytes) : Bytes :=
  match findSubstr c (lit "|") 0 with
  | none => c
  | some bar => substring c 0 bar

end Agent
