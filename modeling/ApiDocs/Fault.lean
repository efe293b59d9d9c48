import ApiDocs.Json.Reader
import ApiDocs.Text.Quoted
import ApiDocs.Text.Utf8

/-! Everything that can stop a step, by its cause, and the one place where a cause is put into words. -/

set_option autoImplicit false

namespace ApiDocs

inductive Fault where
  /-- No file or directory has the name. -/
  | absent (path : Text)
  /-- A directory stands where a file is needed. -/
  | isDirectory (path : Text)
  /-- A file stands where a directory is needed. -/
  | notDirectory (path : Text)
  /-- Something has the name of a new directory. -/
  | alreadyExists (path : Text)
  /-- A name or the whole path has too many bytes. -/
  | tooLong (path : Text)
  /-- A path holds a null character. -/
  | nullByte
  /-- A directory has an entry of the name that is to be moved into it. -/
  | destinationExists (path : Text)
  /-- Directories lie deeper than the tree is high. -/
  | tooDeep
  | undecodable (defect : Utf8.Defect)
  | unencodable (run : Utf8.Unencodable)
  | malformed (defect : Json.Defect)
  /-- An image line names the source folder only with spaces in it. -/
  | imageFolderBroken
  /-- An image line names the source folder more than once. -/
  | imageFolderRepeated
  /-- A function definition has no name. -/
  | functionUnnamed
  /-- The first module of a directory has no page of its own. -/
  | namespaceUndetermined
  /-- The directive of an instance page names no function. -/
  | directiveUnnamed
  /-- A functional page has no directive. -/
  | directiveMissing
  /-- A page has no room for a title and its underline. -/
  | pageTooShort
  /-- The folder of a function has no functional page. -/
  | functionalMissing
  /-- The index has no block of functions. -/
  | functionsBlockMissing
  /-- The arguments do not even hold the program's name. -/
  | programUnnamed
  /-- No library is given. -/
  | libraryMissing
  /-- A common title is asked for and none is given. -/
  | titleMissing
  /-- A value of this kind has no items to go through. -/
  | notIterable (kind : Text)
  /-- A value of this kind is no place in a list. -/
  | listPlaceKind (kind : Text)
  /-- A value of this kind is no place in a text. -/
  | textPlaceKind (kind : Text)
  /-- A value of this kind has no parts. -/
  | notSubscriptable (kind : Text)
  /-- A list of links ends too early. -/
  | linkMissing
  /-- A number is no place in any list. -/
  | placeTooLarge
  /-- A text of links ends too early. -/
  | linkCharacterMissing
  /-- An object has no member of this name. -/
  | memberMissing (name : Text)
  /-- A value of this kind stands in for a part of an address. -/
  | addressKind (kind : Text)
  /-- A value of this kind stands in for the table of namespaces. -/
  | namespacesKind (kind : Text)
  /-- A namespace is to be shown as a value of this kind. -/
  | namespaceKind (kind : Text)
  deriving DecidableEq, Repr

def Utf8.Reason.message : Utf8.Reason → Text
  | .start => "invalid start byte"
  | .continuation => "invalid continuation byte"
  | .ended => "unexpected end of data"

def Utf8.Defect.message (defect : Utf8.Defect) : Text :=
  "'utf-8' codec can't decode " ++
    (match defect.bytes with
      | [b] => "byte 0x" ++ Text.hexDigits 2 b.toNat ++ " in position " ++ Text.ofNat defect.place
      | bytes => "bytes in position " ++ Text.ofNat defect.place ++ "-" ++
        Text.ofNat (defect.place + bytes.length - 1)) ++
    ": " ++ defect.reason.message

def Utf8.Unencodable.message (run : Utf8.Unencodable) : Text :=
  "'utf-8' codec can't encode " ++
    (match run.points with
      | [point] => "character " ++ Text.quoted [point] ++ " in position " ++ Text.ofNat run.place
      | points => "characters in position " ++ Text.ofNat run.place ++ "-" ++
        Text.ofNat (run.place + points.length - 1)) ++
    ": surrogates not allowed"

def Json.Container.name : Json.Container → Text
  | .list => "array"
  | .object => "object"

def Json.Expected.message : Json.Expected → Text
  | .value => "Expecting value"
  | .name => "Expecting property name enclosed in double quotes"
  | .colon => "Expecting ':' delimiter"
  | .comma => "Expecting ',' delimiter"
  | .nothing => "Extra data"
  | .quote => "Unterminated string starting at"
  | .visible => "Invalid control character at"
  | .escape => "Invalid \\escape"
  | .codeUnit => "Invalid \\uXXXX escape"
  | .plainStart => "Unexpected UTF-8 BOM (decode using utf-8-sig)"

def Json.Defect.message : Json.Defect → Text
  | .at expected line column place =>
    expected.message ++ ": line " ++ Text.ofNat line ++ " column " ++ Text.ofNat column ++
      " (char " ++ Text.ofNat place ++ ")"
  | .digits count =>
    "Exceeds the limit (" ++ Text.ofNat Json.digitLimit ++
      " digits) for integer string conversion: value has " ++ Text.ofNat count ++
      " digits; use sys.set_int_max_str_digits() to increase the limit"
  | .nested container =>
    "maximum recursion depth exceeded while decoding a JSON " ++ container.name ++
      " from a unicode string"

namespace Fault

def message : Fault → Text
  | absent path => "[Errno 2] No such file or directory: " ++ Text.quoted path
  | isDirectory path => "[Errno 21] Is a directory: " ++ Text.quoted path
  | notDirectory path => "[Errno 20] Not a directory: " ++ Text.quoted path
  | alreadyExists path => "[Errno 17] File exists: " ++ Text.quoted path
  | tooLong path => "[Errno 36] File name too long: " ++ Text.quoted path
  | nullByte => "embedded null byte"
  | destinationExists path => "Destination path '" ++ path ++ "' already exists"
  | tooDeep => "maximum recursion depth exceeded"
  | undecodable defect => defect.message
  | unencodable run => run.message
  | malformed defect => defect.message
  | imageFolderBroken => "not enough values to unpack (expected 2, got 1)"
  | imageFolderRepeated => "too many values to unpack (expected 2)"
  | functionUnnamed => "string index out of range"
  | namespaceUndetermined =>
    "cannot access local variable 'dotted_namespace' where it is not associated with a value"
  | directiveUnnamed => "list index out of range"
  | directiveMissing => "list index out of range"
  | pageTooShort => "list assignment index out of range"
  | functionalMissing => "list index out of range"
  | functionsBlockMissing => "list index out of range"
  | programUnnamed => "list index out of range"
  | libraryMissing => "'list' object has no attribute 'split'"
  | titleMissing => "can only concatenate str (not \"list\") to str"
  | notIterable kind => "'" ++ kind ++ "' object is not iterable"
  | listPlaceKind kind => "list indices must be integers or slices, not " ++ kind
  | textPlaceKind kind => "string indices must be integers, not '" ++ kind ++ "'"
  | notSubscriptable kind => "'" ++ kind ++ "' object is not subscriptable"
  | linkMissing => "list index out of range"
  | placeTooLarge => "cannot fit 'int' into an index-sized integer"
  | linkCharacterMissing => "string index out of range"
  | memberMissing name => name
  | addressKind kind => "can only concatenate str (not \"" ++ kind ++ "\") to str"
  | namespacesKind kind => "'" ++ kind ++ "' object has no attribute 'items'"
  | namespaceKind kind => "sequence item 0: expected str instance, " ++ kind ++ " found"

end Fault
end ApiDocs
