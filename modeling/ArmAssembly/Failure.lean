import ArmAssembly.File.Basic
import ArmAssembly.Problem
import ArmAssembly.Text.Location
import ArmAssembly.Text.Shown

set_option autoImplicit false

/-! # Failures of the assembler

What the user is told: a problem with the program, by line and column, or a failure to read
or write a file.
-/

namespace ArmAssembly

/-- The wording of a cause. -/
def Cause.message : Cause → String
  | unknownSymbol symbol => "unknown symbol '" ++ shown symbol ++ "'"
  | malformed cause => cause.message
  | unencodable cause => cause.message
  | undefinedLabel name => s!"label {name} is not defined"
  | movedLabel name first second =>
    s!"internal error: label {name} was at address {first.text} in the first pass " ++
      s!"but at {second.text} in the second"

/-- Why nothing, or not everything, was assembled. -/
inductive Failure where
  | program (cause : Cause) (location : Location)
  | input (file : FileName) (error : IoError)
  | output (file : FileName) (error : IoError)
  | listing (error : IoError)
deriving DecidableEq

/-- A problem with the program `source`, as the user is told. -/
def Problem.failure (problem : Problem) (source : List Char) : Failure :=
  .program problem.cause (.ofOffset source problem.span.start)

/-- The wording of a failure. -/
def Failure.message : Failure → String
  | program cause location => location.text ++ ": " ++ cause.message
  | input file error =>
    "I/O error reading input file " ++ file.textWithRemark ++ ": " ++ error.message
  | output file error => "I/O error writing output file " ++ file.text ++ ": " ++ error.message
  | listing error => "error writing on stdout: " ++ error.message

end ArmAssembly
