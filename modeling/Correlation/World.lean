/-!
# Surroundings of a program

What a program can ask for: environment variables, and what there is at a path.
-/

namespace Correlation

/-! ## Variables -/

/-- What the variables that are set are set to, which need not be text. -/
abbrev Environment : Type :=
  String → Option (Array UInt8)

/-- The value of a variable that is set to text, in UTF-8. -/
def Environment.text? (env : Environment) (name : String) : Option String :=
  (env name).bind fun value => String.fromUTF8? ⟨value⟩

theorem Environment.text?_of_unset (env : Environment) {name : String} (h : env name = none) :
    env.text? name = none := by
  rw [text?, h, Option.bind_none]

theorem Environment.text?_of_text (env : Environment) {name text : String} (h : env name = some text.toUTF8.data) :
    env.text? name = some text := by
  have hvalid : text.toUTF8.IsValidUTF8 := text.isValidUTF8
  simp only [text?, h, Option.bind_some, String.fromUTF8?]
  rw [dif_pos hvalid]
  rfl

/-! ## Files -/

/-- Why there are no contents to read, in the words of the system. -/
structure ReadFault where
  message : String
  deriving Repr, DecidableEq

namespace ReadFault

def missing : ReadFault :=
  ⟨"No such file or directory (os error 2)"⟩

def notDirectory : ReadFault :=
  ⟨"Not a directory (os error 20)"⟩

def isDirectory : ReadFault :=
  ⟨"Is a directory (os error 21)"⟩

def nameTooLong : ReadFault :=
  ⟨"File name too long (os error 36)"⟩

def zeroInName : ReadFault :=
  ⟨"file name contained an unexpected NUL byte"⟩

def notText : ReadFault :=
  ⟨"stream did not contain valid UTF-8"⟩

end ReadFault

/-- What there is at a path: whether it is a file, and what comes of reading it. A file that is there need not be
readable, and what can be read need not be a file. -/
structure Found where
  isFile : Bool
  bytes : Except ReadFault (Array UInt8)

namespace Found

def nothing : Found :=
  ⟨false, .error .missing⟩

/-- Some part of the path before its end is a file. -/
def notDirectory : Found :=
  ⟨false, .error .notDirectory⟩

/-- The path, or a name in it, is longer than a path or a name can be. -/
def tooLong : Found :=
  ⟨false, .error .nameTooLong⟩

/-- The path has the character with code zero in it, which no name has. -/
def unnamed : Found :=
  ⟨false, .error .zeroInName⟩

def directory : Found :=
  ⟨false, .error .isDirectory⟩

/-- Something that can be read and is no file. -/
def device (bytes : Array UInt8) : Found :=
  ⟨false, .ok bytes⟩

def file (bytes : Array UInt8) : Found :=
  ⟨true, .ok bytes⟩

/-- The contents as text, which has to be UTF-8. -/
def text (found : Found) : Except ReadFault String :=
  match found.bytes with
  | .error e => .error e
  | .ok contents =>
    match String.fromUTF8? ⟨contents⟩ with
    | some text => .ok text
    | none => .error .notText

end Found

/-- What a program can ask for. -/
structure World where
  env : Environment
  find : String → Found

/-! ## Paths -/

namespace Path

def isAbsolute (path : String) : Bool :=
  path.toList.head? = some '/'

/-- `part` as seen from `path`; an absolute part stands alone. -/
def join (path part : String) : String :=
  if isAbsolute part then part
  else if path = "" ∨ path.toList.getLast? = some '/' then path ++ part
  else path ++ "/" ++ part

end Path

end Correlation
