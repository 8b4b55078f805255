import Furrow.Model

set_option relaxedAutoImplicit false
set_option autoImplicit false

/-!
# Capture policy

`policy.rs`: which paths a capture leaves out.  A policy has literal rules, each of which
excludes a path and everything below it, and may have a matcher for the ignore rules of a
repository.  What the matcher says is given by functions.

## Main definitions

* `Furrow.CapturePolicy`, `Furrow.CapturePolicy.excludesBytes` — the policy and its decision.
-/

namespace Furrow

/-- What the ignore rules say of relative paths. -/
structure IgnoreMatcher where
  excludes : Bytes → Bool
  trackedChildren : Bytes → Option (List Bytes)
  containsIgnored : Bytes → Bool

/-- Literal rules, and the ignore rules if they are in use. -/
structure CapturePolicy where
  excluded : List Bytes
  matcher : Option IgnoreMatcher

/-- A literal rule excludes its path and all paths below it. -/
def ruleExcludes (rule relative : Bytes) : Bool :=
  relative = rule || (rule.isPrefixOf relative && relative[rule.length]? = some slash)

namespace CapturePolicy

/-- Whether a path is left out. -/
def excludesBytes (policy : CapturePolicy) (relative : Bytes) : Bool :=
  (policy.excluded.any fun rule => ruleExcludes rule relative) ||
    match policy.matcher with
    | some matcher => matcher.excludes relative
    | none => false

/-- The names to look at in a directory, if the ignore rules know them. -/
def trackedChildren (policy : CapturePolicy) (relative : Bytes) : Option (List Bytes) :=
  match policy.matcher with
  | some matcher => matcher.trackedChildren relative
  | none => none

/-- Whether a directory has ignored paths below it. -/
def containsIgnored (policy : CapturePolicy) (relative : Bytes) : Bool :=
  match policy.matcher with
  | some matcher => matcher.containsIgnored relative
  | none => false

end CapturePolicy

end Furrow
