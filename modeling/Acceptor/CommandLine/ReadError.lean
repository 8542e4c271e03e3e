/-
Why a file cannot be read, as causes, each with its wording.
-/

namespace Acceptor.CommandLine

/-- Why a file cannot be read. -/
inductive ReadError
  /-- A path leads nowhere. -/
  | missing
  /-- A path leads on through what is no directory. -/
  | notDirectory
  /-- A path ends at a directory. -/
  | isDirectory
  /-- A path, or a name in it, has too many bytes. -/
  | nameTooLong
  /-- The bytes of a file are no text. -/
  | notText
  /-- Any other fault of the system, as the system describes and numbers it. -/
  | system (description : String) (code : Nat)
deriving DecidableEq

/-- The wording of a fault of the system. -/
def systemMessage (description : String) (code : Nat) : String :=
  s!"{description} (os error {code})"

/-- The wording of a cause. -/
def ReadError.message : ReadError → String
  | missing => systemMessage "No such file or directory" 2
  | notDirectory => systemMessage "Not a directory" 20
  | isDirectory => systemMessage "Is a directory" 21
  | nameTooLong => systemMessage "File name too long" 36
  | notText => "stream did not contain valid UTF-8"
  | system description code => systemMessage description code

end Acceptor.CommandLine
