-- SUMMARY: `locale_traits.cpp` on the Windows branch: the conversions between `std::wstring` and UTF-8 in `std::string`.
import Spacenet.Library.Unicode
import Spacenet.Path2rel
import Spacenet.Sqlite.Database

/-!
# Conversions of strings

`str2utf` goes through `std::wstring_convert`. `utf2str` goes through
`MultiByteToWideChar`; where that fails it widens the bytes one by one.
-/

namespace Spacenet

open Unicode

namespace LocaleTraits

/-- What the libraries make of texts that are not Unicode: `wstring_convert` of surrogates that stand
alone, `MultiByteToWideChar` of bytes that are no UTF-8. Both differ between versions. -/
structure Nls where
  lone : WString → Except Error Blob
  replaced : Blob → WString

/-- `to_bytes` throws, as documented, where it cannot convert. -/
def Nls.Throws (nls : Nls) : Prop := ∀ w, ¬WellFormed w → nls.lone w = .error badConversion

variable (nls : Nls)

/-! ## To UTF-8 -/

/-- `converter.to_bytes`. -/
def toBytes (w : WString) : Except Error Blob :=
  match ofUtf16 w with
  | some s => .ok (utf8 s)
  | none => nls.lone w

/-- `str2utf`. It passes a pointer to the characters, and so what stands before a NUL. -/
def str2utf (str : WString) : Except Error Blob := toBytes nls (cString str)

/-! ## From UTF-8 -/

def INT_MAX : Nat := 2147483647

/-- `MultiByteToWideChar(CP_UTF8, 0, ...)`: the characters converted, of which it returns the number. -/
def multiByteToWideChar (str : Blob) : WString :=
  match ofUtf8 str with
  | some s => utf16 s
  | none => nls.replaced str

/-- A byte as a `wchar_t`. `char` is signed. -/
def widen (str : Blob) : WString := str.map fun c => c.signExtend 16

/-- The `try` block: `none` is the `range_error`. -/
def tryConvert (str : Blob) : Option WString :=
  let sz := str.length
  if sz > INT_MAX then none
  else
    let charsNeeded := (multiByteToWideChar nls str).length
    if charsNeeded = 0 then none
    else
      let buffer := multiByteToWideChar nls str
      let charsConverted := buffer.length
      if charsConverted = 0 then none else some buffer

/-- `utf2str`. -/
def utf2str (str : Blob) : WString :=
  match tryConvert nls str with
  | some buffer => buffer
  | none => widen str

end LocaleTraits

end Spacenet
