import ArmAssembly.Text.Utf8

set_option autoImplicit false

/-! # Files

A file has a name, which is any sequence of bytes, text or not. Files and streams fail in a few
ways, each with the number that the system gives it, if it has one.
-/

namespace ArmAssembly

/-! ## Names -/

/-- The name of a file. -/
structure FileName where
  bytes : List UInt8
deriving DecidableEq

namespace FileName

/-- A text as a file name. -/
def ofString (name : String) : FileName := ⟨name.toUTF8.toList⟩

/-- The name as far as it can be shown. -/
def text (name : FileName) : String := lossyText name.bytes

/-- The name as far as it can be shown, with a remark if it is not all there. -/
def textWithRemark (name : FileName) : String :=
  match utf8? name.bytes with
  | some text => text
  | none => name.text ++ " (some non-Unicode characters changed to make it printable)"

end FileName

/-! ## Failures -/

/-- Why an input or output operation failed. -/
inductive IoError where
  | notFound
  | notDirectory
  | isDirectory
  | noSpace
  | nameTooLong
  | nulInName
  | notText
  | writeZero
  /-- A failure known by its wording only. -/
  | other (wording : String)
deriving DecidableEq

namespace IoError

/-- The wording of a failure. -/
def message : IoError → String
  | notFound => "No such file or directory (os error 2)"
  | notDirectory => "Not a directory (os error 20)"
  | isDirectory => "Is a directory (os error 21)"
  | noSpace => "No space left on device (os error 28)"
  | nameTooLong => "File name too long (os error 36)"
  | nulInName => "file name contained an unexpected NUL byte"
  | notText => "stream did not contain valid UTF-8"
  | writeZero => "failed to write whole buffer"
  | other wording => wording

end IoError

end ArmAssembly
