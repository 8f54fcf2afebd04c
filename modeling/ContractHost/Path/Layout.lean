import ContractHost.Address
import ContractHost.Path

/-!
# Where things are in the tree

The account of an address is at `accounts / <key of the address>`, its fields (balance, nonce, code) are children
of it and its storage is one level deeper; block `n` is at `blockchain / n`.  Running code has the path of its
account's code field and finds other accounts by going up two levels from there.
-/

namespace ContractHost.Path

def account (a : Address) : Path := .ofKeys ["accounts", a.key]

def accountField (a : Address) (field : String) : Path := (account a).child field

def balanceOf (account : Path) : Path := account.child "balance"

def nonceOf (account : Path) : Path := account.child "nonce"

def codeOf (account : Path) : Path := account.child "code"

def slotOf (account : Path) (key : Word) : Path := (account.child "storage").child key.key

def block (number : UInt64) : Path := .ofKeys ["blockchain", toString number.toNat]

/-- The account of `a`, seen from the code at `p`. -/
def sibling (p : Path) (a : Address) : Path := p.resolve [.parent, .parent, .key a.key]

def addressIn : List Segment → Option Address
  | [] => none
  | .key "accounts" :: .key name :: _ => Address.parse? name
  | .key "accounts" :: _ => none
  | _ :: r => addressIn r

/-- The address spelled by the segment behind the first key `accounts`. -/
def address? (p : Path) : Option Address := addressIn p.segments

/-- The account that the path lies in. -/
def accountRoot? (p : Path) : Option Path := p.address?.map account

/-- The slot of a storage key, for the code at `p`: below the account that `p` lies in, or else one level up. -/
def slot (p : Path) (key : Word) : Path := slotOf (p.accountRoot?.getD (p.resolve [.parent])) key

end ContractHost.Path
