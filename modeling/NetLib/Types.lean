import Mathlib.Init
/-!
# Types that several components share
-/

namespace NetLib

/-- `wchar_t` -/
abbrev WChar := BitVec 16

/-- `std::wstring` -/
abbrev WString := List WChar

end NetLib
