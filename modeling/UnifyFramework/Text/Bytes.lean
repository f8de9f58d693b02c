import Mathlib.Data.List.Defs

/-!
# Bytes

The strings of the C++ code, which hold any bytes.
-/

namespace UnifyFramework

/-- `std::string` and `std::vector<unsigned char>`. -/
abbrev Bytes := List UInt8

def ascii (text : List Char) : Bytes := text.map fun c => UInt8.ofNat c.toNat

end UnifyFramework
