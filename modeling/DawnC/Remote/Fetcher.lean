import DawnC.Remote.Cache
import DawnC.Remote.Repository

set_option autoImplicit false

namespace DawnC

/-- Makes a remote file available and gives its path. -/
abbrev Fetcher := String → Action String

/-- Where repositories come from. -/
structure Remotes where
  /-- whether a directory can be made for a clone -/
  room : Except Fault Unit := .ok ()
  /-- the repository at a URL -/
  clone : String → Except Fault Repository

namespace Checkout

/-- The checkout as a tree of its own, with its files below the root. -/
def toStore (files : Checkout) : Store :=
  files.foldl (fun s f => s.insertDeep (Path.names f.1) (.file f.2 false)) {}

end Checkout

namespace Cache

def fetch (c : Cache) (remotes : Remotes) : Fetcher := fun text => do
  match Reference.parse text with
  | .error fault => throw (.reference text fault)
  | .ok r =>
    if c.holds (← Action.store) r.repo r.ref then
      Action.tell (.cacheHit r.repo r.ref)
    else
      Action.within "failed to create cache directories" (Action.files c.ensure)
      Action.within "failed to create temp directory" (Action.ofExcept remotes.room)
      Action.tell (.cloning r.url r.ref)
      let repository ←
        Action.within ("failed to clone repository " ++ r.url) (Action.ofExcept (remotes.clone r.url))
      let files ←
        Action.within ("failed to checkout version " ++ r.ref) (Action.ofExcept (repository.checkout r.ref))
      Action.within "failed to store in cache"
        (c.storeTree (fun _ => files.toStore) r.repo r.ref "/")
    Action.ofExcept ((c.resolve (← Action.store) r).mapError .cache)

end Cache

end DawnC
