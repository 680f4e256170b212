import LearnCode.Firebase.Database
import LearnCode.Library.Callback

/-!
# Backend requests

The asynchronous calls the app makes to the account service, the file storage and the
database, the values their callbacks are given, and the effects of the calls that succeed.

## Main definitions

* `Request` and `Reply`: the calls, and what their callbacks receive;
* `Prog ρ`: the body of a function of the app that calls the backend;
* `databaseOps`, `accounts` and `storedImages`: what the acknowledged calls of a trace did to
  the database, to the account service and to the file storage.
-/

namespace LearnCode

open PathStore

/-- An `Error` given to a callback. -/
structure NSError where
  localizedDescription : String
deriving DecidableEq

/-- The user of an `AuthDataResult`. -/
structure AuthUser where
  uid : String
  email : Option String
deriving DecidableEq

/-- Encoded bytes. -/
abbrev Data : Type := List UInt8

/-- An image, as the result of `jpegData(compressionQuality: 0.5)` on it; an image without a
bitmap has none. -/
structure UIImage where
  jpegData : Option Data
deriving DecidableEq

/-- A file of the storage, from the root. -/
abbrev StorageReference : Type := List String

/-- What the storage tells of a file it has taken. -/
structure StorageMetadata where
  path : StorageReference
deriving DecidableEq

/-- The two optional arguments of a callback. Its type excludes no combination of them. -/
structure Outcome (α : Type) where
  value : Option α
  error : Option NSError
deriving DecidableEq

/-- The end of a single read: a snapshot, or the error given to the cancel block. -/
inductive Read : Type where
  | value (snapshot : Value)
  | cancelled (error : NSError)

/-- An asynchronous call. -/
inductive Request : Type where
  | createUser (email password : String)
  | putData (reference : StorageReference) (uploadData : Data)
  | downloadURL (reference : StorageReference)
  | updateChildValues (path : Path) (values : List (String × Value))
  | setValue (path : Path) (value : Value)
  | removeValue (path : Path)
  | observeSingleEvent (path : Path)

/-- What the callback of a call receives. -/
abbrev Reply : Request → Type
  | .createUser _ _ => Outcome AuthUser
  | .putData _ _ => Outcome StorageMetadata
  | .downloadURL _ => Outcome String
  | .updateChildValues _ _ => Option NSError
  | .setValue _ _ => Option NSError
  | .removeValue _ => Option NSError
  | .observeSingleEvent _ => Read

/-- The body of a function that calls the backend and reports values of type `ρ`. -/
abbrev Prog (ρ : Type) : Type := Callback.Prog Reply ρ

/-- A call that has been answered. -/
abbrev Event : Type := Callback.Event Reply

namespace Event

/-- The effect of an answered call on the database: that of the call, if it is acknowledged. -/
def databaseOps : Event → List (Op String Scalar)
  | ⟨.updateChildValues path values, none⟩ => updateOps path values
  | ⟨.setValue path value, none⟩ => [.write path (fun q => value.leaf q)]
  | ⟨.removeValue path, none⟩ => [.remove path]
  | _ => []

/-- The account that an answered call has created. -/
def account : Event → Option AuthUser
  | ⟨.createUser _ _, ⟨some user, none⟩⟩ => some user
  | _ => none

@[simp] theorem databaseOps_removeValue (path : Path) :
    databaseOps ⟨.removeValue path, (none : Option NSError)⟩ = [.remove path] := rfl

/-- The file that an answered call has stored. -/
def storedImage : Event → Option StorageReference
  | ⟨.putData reference _, ⟨some _, none⟩⟩ => some reference
  | _ => none

/-- The download URL that an answered call delivers. -/
def downloadUrl : Event → Option String
  | ⟨.downloadURL _, located⟩ => located.value
  | _ => none

end Event

/-- The effect of a trace on the database. -/
def databaseOps (trace : List Event) : List (Op String Scalar) :=
  trace.flatMap Event.databaseOps

/-- The accounts a trace has created. -/
def accounts (trace : List Event) : List AuthUser := trace.filterMap Event.account

/-- The files a trace has stored. -/
def storedImages (trace : List Event) : List StorageReference :=
  trace.filterMap Event.storedImage

@[simp] theorem databaseOps_nil : databaseOps [] = [] := rfl

@[simp] theorem databaseOps_cons (e : Event) (trace : List Event) :
    databaseOps (e :: trace) = e.databaseOps ++ databaseOps trace := rfl

theorem databaseOps_append (trace trace' : List Event) :
    databaseOps (trace ++ trace') = databaseOps trace ++ databaseOps trace' :=
  List.flatMap_append

theorem accounts_append (trace trace' : List Event) :
    accounts (trace ++ trace') = accounts trace ++ accounts trace' := List.filterMap_append

theorem storedImages_append (trace trace' : List Event) :
    storedImages (trace ++ trace') = storedImages trace ++ storedImages trace' :=
  List.filterMap_append

/-- An operation of a trace is the effect of one of its events. -/
theorem mem_databaseOps {op : Op String Scalar} {trace : List Event} :
    op ∈ databaseOps trace ↔ ∃ e ∈ trace, op ∈ e.databaseOps := List.mem_flatMap

/-- An operation of a trace of several calls is one of some call. -/
theorem mem_databaseOps_map_snd {ι : Type} [DecidableEq ι] {op : Op String Scalar}
    {trace : List (ι × Event)} :
    op ∈ databaseOps (trace.map Prod.snd) ↔
      ∃ i, op ∈ databaseOps (Callback.project i trace) := by
  simp only [mem_databaseOps, Callback.mem_map_snd_iff]
  constructor
  · rintro ⟨e, ⟨i, hi⟩, hop⟩
    exact ⟨i, e, hi, hop⟩
  · rintro ⟨i, e, hi, hop⟩
    exact ⟨e, ⟨i, hi⟩, hop⟩

@[simp] theorem accounts_nil : accounts [] = [] := rfl

@[simp] theorem accounts_cons (e : Event) (trace : List Event) :
    accounts (e :: trace) = e.account.toList ++ accounts trace := by
  cases h : e.account <;> simp [accounts, h]

@[simp] theorem storedImages_nil : storedImages [] = [] := rfl

@[simp] theorem storedImages_cons (e : Event) (trace : List Event) :
    storedImages (e :: trace) = e.storedImage.toList ++ storedImages trace := by
  cases h : e.storedImage <;> simp [storedImages, h]

end LearnCode
