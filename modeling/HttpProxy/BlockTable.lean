import HttpProxy.System

/-!
# The block table

The keys of the table of `block-table.c`, and the text of an address that is looked up
in it.
-/

namespace HttpProxy

abbrev BlockTable := List (List UInt8)

/-- `HASH_FIND_STR` finds a key equal to the name. -/
def blockTableCheck (table : BlockTable) (name : List UInt8) : Bool := table.contains name

def decimalByte (n : UInt8) : List UInt8 :=
  if n < 10 then [48 + n]
  else if n < 100 then [48 + n / 10, 48 + n % 10]
  else [48 + n / 100, 48 + n / 10 % 10, 48 + n % 10]

/-- `inet_ntop` for `AF_INET`. -/
def inetNtop (address : Address) : List UInt8 :=
  decimalByte address.a ++ 46 :: (decimalByte address.b ++ 46 :: (decimalByte address.c ++
    46 :: decimalByte address.d))

end HttpProxy
