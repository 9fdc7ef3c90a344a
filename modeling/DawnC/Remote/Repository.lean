import DawnC.Fault
import DawnC.Text.Utf8

set_option autoImplicit false

namespace DawnC

/-- The files of one commit, by path. -/
abbrev Checkout := List (String × Bytes)

/-- A cloned repository. How it resolves a revision, and what it checks out, is left open. -/
structure Repository where
  /-- the commit that a revision names, if it names one -/
  commit? : String → Option String
  /-- why there is no work tree, or the files of a commit in it, or why they cannot be put there -/
  worktree : Except Fault (String → Except Fault Checkout)

namespace Repository

/-- The revisions that a version may mean, in order: a tag, a branch of the remote, a local branch,
anything. -/
def revisionsOfVersion (version : String) : List String :=
  ["refs/tags/" ++ version, "refs/remotes/origin/" ++ version, "refs/heads/" ++ version, version]

/-- The files of a version: those of the first commit that one of its revisions names. -/
def checkout (r : Repository) (version : String) : Except Fault Checkout := do
  let files ← r.worktree
  match (revisionsOfVersion version).findSome? r.commit? with
  | none => throw (.cache (.versionNotFound version))
  | some commit => files commit

end Repository

end DawnC
