import AvroJsonSchema.Fault
import AvroJsonSchema.Text.Digit

/-!
# Schema registries

A registry answers a request for a version of a subject with the text of its schema.  The address
of a version is built from the base address, the subject with every octet but the unreserved ones
escaped, and the version: the latest one or a positive number, written as it was given.

* **`Registry.Client`**: where a registry is and how long to wait for it.
* **`Registry.checkVersion`**: which versions there are.
* **`Registry.percentEncode`**: a text as one segment of an address.
* **`Registry.Client.schemaUrl`**: the address of a version of a subject.
* **`Registry.Client.fetch`**: its schema text, and the requests that are made.
-/

namespace AvroJsonSchema

namespace Registry

/-- A registry at a base address. -/
structure Client where
  base : Text
  /-- How many seconds to wait for an answer. -/
  timeout : Json

/-- A request for a schema text. -/
structure Request where
  url : Text
  accept : Text
  timeout : Json

/-- The answer to a request. -/
structure Response where
  status : Int
  body : Text

/-- What answers a request for an address, if anything does. -/
abbrev Network := Text → Option Response

/-- The slash. -/
def slash : CodePoint := CodePoint.ofNat 47

/-- The version that stands for the newest one. -/
def latest : Text := "latest"

/-- The timeout where none is chosen. -/
def defaultTimeout : Json := .int 10

/-- The client of a base address, which loses one slash at its end. -/
def Client.ofUrl (url : Text) (timeout : Json) : Client where
  base := if url.getLast? = some slash then url.dropLast else url
  timeout

/-- The decimal digits at the beginning of a text. -/
def leadingDecimals (t : Text) : List Nat :=
  (t.takeWhile (·.decimal?.isSome)).filterMap CodePoint.decimal?

/-- A version is the latest one or a positive number in digits of any script.  A digit that takes
no part in a number passes as a digit and is refused as a number. -/
def checkVersion (version : Text) : Except Fault Unit :=
  if version = latest then .ok ()
  else if version.isEmpty || !version.all CodePoint.isDigit then .error (.invalidVersion version)
  else
    let digits := leadingDecimals version
    if Json.Numeral.digitLimit < digits.length then .error (.tooManyDigits digits.length)
    else if digits.length < version.length then .error (.unreadableVersion version)
    else if digits.all (· = 0) then .error (.invalidVersion version)
    else .ok ()

/-- Whether an octet stands for itself in a segment: letters, digits and four marks. -/
def isUnreserved (b : UInt8) : Bool :=
  let n := b.toNat
  (48 ≤ n && n ≤ 57) || (65 ≤ n && n ≤ 90) || (97 ≤ n && n ≤ 122)
    || n = 45 || n = 46 || n = 95 || n = 126

/-- A hexadecimal digit in an escape. -/
def escapeDigit (n : Nat) : CodePoint :=
  CodePoint.ofNat (if n < 10 then 48 + n else 55 + n)

/-- An octet in a segment. -/
def percentEncodeOctet (b : UInt8) : Text :=
  if isUnreserved b then [CodePoint.ofNat b.toNat]
  else [CodePoint.ofNat 37, escapeDigit (b.toNat / 16), escapeDigit (b.toNat % 16)]

/-- A text as one segment of an address. -/
def percentEncode (t : Text) : Except Fault Text :=
  match Utf8.encode t with
  | .ok bytes => .ok (bytes.flatMap percentEncodeOctet)
  | .error fault => .error (.unencodable fault)

/-- The address of a version of a subject. -/
def Client.schemaUrl (client : Client) (subject version : Text) : Except Fault Text := do
  checkVersion version
  let segment ← percentEncode subject
  pure (client.base ++ Text.ofString "/subjects/" ++ segment ++ Text.ofString "/versions/"
    ++ version ++ Text.ofString "/schema")

/-- The body of an answer that is a success. -/
def readResponse (client : Client) (subject version : Text) :
    Option Response → Except Fault Text
  | none => .error (.registryUnreachable client.base subject version)
  | some response =>
    if response.status = 200 then .ok response.body
    else .error (.registryStatus response.status subject version)

/-- The schema text of a version of a subject, and the requests that were made for it. -/
def Client.fetch (client : Client) (network : Network) (subject version : Text) :
    Except Fault Text × List Request :=
  match client.schemaUrl subject version with
  | .error fault => (.error fault, [])
  | .ok url =>
    (readResponse client subject version (network url),
      [⟨url, "application/json", client.timeout⟩])

end Registry

end AvroJsonSchema
