import Tnt.JsonReader
import Tnt.ModuleEvents
/-!
# The manifest of a module (`module_runtime.c`)

`tnt_module_manifest_load` reads three fields with the reader of `json_text.c`. What the module may
do and wants to hear is looked for in the text by `json_array_contains_string`, which goes
to the first `"key"` that the text has, wherever that stands. `manifest_capabilities`
says when this is the same as the member of the object, and what the manifest is then taken for.
-/
open BaseLib

namespace Tnt

open Json

def PATH_MAX : Nat := 4096

def TNT_MODULE_EVENT_MESSAGE_CREATED : Bytes := lit "message.created"

/-- `is_safe_relative_entrypoint` -/
def isSafeRelativeEntrypoint (entrypoint : Bytes) : Bool :=
  if entrypoint = [] ∨ byteAt entrypoint 0 = 0x2F then false
  else if strstr entrypoint (lit "..") then false
  else entrypoint.all fun p => !(p ≤ 32 || p == 127 || (lit "|;&`$<>\\").contains p)

/-- The loop over an item in `json_array_contains_string`: what it has copied, and the cursor behind
the quote. A backslash is dropped, and the byte behind it copied. -/
def copyItem (item : Bytes) : Bytes → Option (Bytes × Bytes)
  | [] => none
  | c :: cursor =>
    if c = 0x22 then some (item, cursor)
    else if c = 0x5C then
      match cursor with
      | [] => none
      | c :: cursor => if item.length + 1 ≥ 128 then none else copyItem (item ++ [c]) cursor
    else if item.length + 1 ≥ 128 then none
    else copyItem (item ++ [c]) cursor

/-- The loop over the items in `json_array_contains_string`. -/
def containsLoop (value : Bytes) : Nat → Bytes → Bool
  | 0, _ => false
  | rounds + 1, p =>
    match p.dropWhile fun c => isBlank c || c == 0x2C with
    | [] => false
    | c :: cursor =>
      if c = 0x5D then false
      else if c ≠ 0x22 then false
      else
        match copyItem [] cursor with
        | none => false
        | some (item, p) => if item = value then true else containsLoop value rounds p

/-- `json_array_contains_string`, from behind the colon on. -/
def arrayContains (value p : Bytes) : Bool :=
  match p.dropWhile isBlank with
  | [] => false
  | c :: p => if c ≠ 0x5B then false else containsLoop value (p.length + 1) p

/-- `json_array_contains_string` -/
def jsonArrayContainsString (json key value : Bytes) : Bool :=
  let needle := 0x22 :: key ++ [0x22]
  if needle.length ≥ 128 then false
  else
    match strstrAt needle json with
    | none => false
    | some p =>
      match strchr (p.drop needle.length) 0x3A with
      | none => false
      | some (_, p) => arrayContains value p

/-- `tnt_module_manifest_t` -/
structure ModuleManifest where
  name : Bytes
  entrypoint : Bytes
  wantsMessageCreated : Bool
  canReadMessages : Bool
  canCreateMessages : Bool
  deriving DecidableEq

/-- `tnt_module_manifest_load`, where `files` is what `fopen` finds; `none` is -1. -/
def moduleManifestLoad (files : Bytes → Option Bytes) (moduleDir : Bytes) : Option ModuleManifest :=
  let manifestPath := moduleDir ++ lit "/tnt-module.json"
  if moduleDir = [] ∨ manifestPath.length ≥ PATH_MAX then none
  else
    (files manifestPath).bind fun file =>
      let manifest := file.take (TNT_MODULE_LINE_MAX - 1)
      let json := cstr manifest
      if manifest.length = 0 ∨ manifest.length ≥ TNT_MODULE_LINE_MAX - 1 then none
      else
        (jsonGetStringField json (lit "protocol") 64).bind fun protocol =>
          if protocol ≠ TNT_MODULE_PROTOCOL_VERSION then none
          else
            (jsonGetStringField json (lit "name") 64).bind fun name =>
              (jsonGetStringField json (lit "entrypoint") PATH_MAX).bind fun entrypoint =>
                if !isValidModuleName name ∨ !isSafeRelativeEntrypoint entrypoint then none
                else
                  let out : ModuleManifest :=
                    { name := name, entrypoint := entrypoint,
                      wantsMessageCreated :=
                        jsonArrayContainsString json (lit "events") TNT_MODULE_EVENT_MESSAGE_CREATED
                      canReadMessages := jsonArrayContainsString json (lit "permissions") (lit "message:read")
                      canCreateMessages := jsonArrayContainsString json (lit "permissions") (lit "message:create") }
                  if !out.wantsMessageCreated ∨ !out.canReadMessages ∨ !out.canCreateMessages then none
                  else some out

/-! ## What the manifest declares, and what is read -/

/-- The spelling of a character without its backslash. -/
def bare : Character → Bytes
  | .plain c _ => [c]
  | .escape e => [e.letter]
  | .unicode u => [0x75, u.a, u.b, u.c, u.d]

/-- The spelling of a string without its backslashes. -/
def unescaped (cs : List Character) : Bytes := cs.flatMap bare

/-- The strings of an array in front of the first item that is none or has no room in `item`. -/
def comparedElements : List Element → List Bytes
  | ⟨_, .string cs, _⟩ :: elements =>
    if (unescaped cs).length < 128 then unescaped cs :: comparedElements elements else []
  | _ => []

/-- The strings that the value is compared with, in the array of a member. -/
def compared (m : Member) : List Bytes :=
  match m.value with
  | .array _ elements => comparedElements elements
  | _ => []

def manifestString (text : String) : Value := .string (unescapedText (lit text))

def manifestArray (texts : List String) : Value :=
  .array noBlanks (texts.map fun text => ⟨noBlanks, manifestString text, noBlanks⟩)

def manifestField (name : String) (value : Value) : Member := plainMember (lit name) value

def headFields : List Member :=
  [manifestField "protocol" (manifestString "tnt.module.v1"), manifestField "name" (manifestString "echo"),
    manifestField "entrypoint" (manifestString "./echo.sh")]

def capabilityFields : List Member :=
  [manifestField "permissions" (manifestArray ["message:read", "message:create"]),
    manifestField "events" (manifestArray ["message.created"])]

def echoManifest : Document := plainObject (headFields ++ capabilityFields)

end Tnt
