import Sweep.Settings
import Sweep.Toml.Merge
import Sweep.Toml.Layout
/-!
# Loading settings

Settings come from one file or from layers of files. Layers that do not exist are passed over, and
each later one is laid over those before it. The merged document is written down and read again
before the settings are taken from it, so its tables must not get in each other's way in writing.
-/

namespace Sweep.Settings

open Toml (Document)

/-- What there is at the path of a file. -/
inductive Source where
  | missing
  | directory
  | content (bytes : List UInt8)
  deriving DecidableEq, Repr

/-- Why settings cannot be loaded or saved. -/
inductive Fault where
  | missing
  | directory
  | notText
  /-- A layer is no document. -/
  | malformed
  /-- The document does not give settings. -/
  | unfit
  /-- The settings cannot be written down. -/
  | unwritable
  deriving DecidableEq, Repr

/-- What is said about a file that cannot be read or written. -/
def Fault.message? : Fault → Option Text
  | .missing => some "Failed to read file: No such file or directory (os error 2)".toList
  | .directory => some "Failed to read file: Is a directory (os error 21)".toList
  | .notText => some "Failed to read file: stream did not contain valid UTF-8".toList
  | .malformed | .unfit | .unwritable => none

/-- The text at a path. -/
def Source.text : Source → Except Fault Text
  | .missing => .error .missing
  | .directory => .error .directory
  | .content bytes =>
    match Utf8.strict? bytes with
    | some t => .ok t
    | none => .error .notText

/-- The settings that a document gives, or the fault that it gives none. -/
def fromDocument (doc : Option Document) : Except Fault Settings :=
  match doc.bind ofDocument? with
  | some s => .ok s
  | none => .error .unfit

/-- Loads the settings of one file. -/
def load (file : Source) : Except Fault Settings :=
  match file.text with
  | .ok t => fromDocument (Document.parse? t)
  | .error e => .error e

/-! ## Layers -/

/-- Lays the documents of some files over a document. -/
def mergeLayers (doc : Document) : List Source → Except Fault Document
  | [] => .ok doc
  | .missing :: files => mergeLayers doc files
  | file :: files =>
    match file.text with
    | .error e => .error e
    | .ok t =>
      match Document.parse? t with
      | some later => mergeLayers (doc.merge later) files
      | none => .error .malformed

/-- Loads the settings of layers of files. -/
def loadLayers (files : List Source) : Except Fault Settings :=
  match mergeLayers [] files with
  | .ok doc => fromDocument doc.reread?
  | .error e => .error e

end Sweep.Settings
