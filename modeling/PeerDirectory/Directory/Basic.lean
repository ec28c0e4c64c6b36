import PeerDirectory.Server.List
import Mathlib.Data.Set.Basic

/-!
# The abstract directory

What the linked lists are for: a finite map from user names to entries. An
entry holds the address of the user while it is connected and its published
files with their descriptions. `Directory.step` says what each call means on
this map; a refused call changes nothing and its code says why. A listing
answers with a set of rows, so the order of the lists is left out here.
-/

namespace PeerDirectory

/-- What the directory knows of one user. -/
structure Entry where
  address : Option (Bytes × Bytes)
  files : Bytes → Option Bytes

/-- User names and what is known of them. -/
abbrev Directory := Bytes → Option Entry

/-- The answer to a call, with the rows of a listing as a set. -/
inductive Answer where
  | code (error : Int)
  | users (rows : Set (Bytes × Bytes × Bytes))
  | content (rows : Set (Bytes × Bytes))

namespace Directory

/-- Nobody is registered. -/
def empty : Directory := fun _ => none

/-- The rows `(username, ip, port)` of the connected users. -/
def userRows (d : Directory) : Set (Bytes × Bytes × Bytes) :=
  {row | ∃ e, d row.1 = some e ∧ e.address = some row.2}

/-- The user is registered and connected. -/
def Connected (d : Directory) (username : Bytes) : Prop :=
  ∃ e, d username = some e ∧ e.address.isSome

/-- The operation is left to registered and connected users: 1 for an unknown
user, 2 for one that is not connected. -/
def ifConnected (d : Directory) (username : Bytes)
    (k : Entry → Directory × Answer) : Directory × Answer :=
  match d username with
  | none => (d, .code 1)
  | some e =>
      match e.address with
      | none => (d, .code 2)
      | some _ => k e

def set (d : Directory) (username : Bytes) (e : Option Entry) : Directory :=
  Function.update d username e

/-- The meaning of a call. -/
def step (o : Outcomes) (d : Directory) : Call → Directory × Answer
  | .registerUser username =>
      match d username with
      | some _ => (d, .code 1)
      | none =>
          match o.mallocNode with
          | none => (d, .code (-1))
          | some _ =>
              (d.set username (some { address := none, files := fun _ => none }), .code 0)
  | .unregisterUser username =>
      match d username with
      | none => (d, .code 1)
      | some _ => (d.set username none, .code 0)
  | .connectUser port username =>
      match d username with
      | none => (d, .code 1)
      | some e =>
          match e.address with
          | some _ => (d, .code 2)
          | none =>
              match o.getpeername with
              | none => (d, .code 3)
              | some addr =>
                  (d.set username (some { e with address := some (inetNtoa addr, port) }),
                    .code 0)
  | .disconnectUser username =>
      d.ifConnected username fun e =>
        (d.set username (some { e with address := none }), .code 0)
  | .registerFileFromUser username file description =>
      d.ifConnected username fun e =>
        match e.files file with
        | some _ => (d, .code 3)
        | none =>
            if o.mallocFile then
              (d.set username
                (some { e with files := Function.update e.files file (some description) }),
                .code 0)
            else
              (d, .code 4)
  | .unregisterFileFromUser username file =>
      d.ifConnected username fun e =>
        match e.files file with
        | none => (d, .code 3)
        | some _ =>
            (d.set username (some { e with files := Function.update e.files file none }),
              .code 0)
  | .listUsers username =>
      d.ifConnected username fun _ => (d, .users d.userRows)
  | .listContent username username2 =>
      d.ifConnected username fun _ =>
        match d username2 with
        | none => (d, .code 3)
        | some target => (d, .content {row | target.files row.1 = some row.2})

end Directory

end PeerDirectory
