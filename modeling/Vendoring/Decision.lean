import Vendoring.Path
/-!
# The record of a decision

Every import that is looked at closely leaves one entry: where it stood, what was there, what stands
there now and a tag for the kind of decision.  Three tags leave the statement alone; their entries
have no replacement.
-/
namespace Vendoring

inductive Tag where
  | consumerImport
  | consumerFromImport
  | samePackageSubmodule
  | samePackageSelf
  | samePackageInitTransform
  | samePackageInitCircular
  | samePackageFromImport
  | crossPackageImport
  | crossPackageFromImport
  | renameAlias
  | starImport
  | dynamicImport
  | patch
  | hookTransform
deriving DecidableEq, Repr

namespace Tag

def all : List Tag :=
  [.consumerImport, .consumerFromImport, .samePackageSubmodule, .samePackageSelf,
    .samePackageInitTransform, .samePackageInitCircular, .samePackageFromImport,
    .crossPackageImport, .crossPackageFromImport, .renameAlias, .starImport, .dynamicImport,
    .patch, .hookTransform]

/-- The word for a tag in logs and reports. -/
def label : Tag → String
  | .consumerImport => "CONSUMER_IMPORT"
  | .consumerFromImport => "CONSUMER_FROM_IMPORT"
  | .samePackageSubmodule => "SAME_PACKAGE_SUBMODULE"
  | .samePackageSelf => "SAME_PACKAGE_SELF"
  | .samePackageInitTransform => "SAME_PACKAGE_INIT_TRANSFORM"
  | .samePackageInitCircular => "SAME_PACKAGE_INIT_CIRCULAR"
  | .samePackageFromImport => "SAME_PACKAGE_FROM_IMPORT"
  | .crossPackageImport => "CROSS_PACKAGE_IMPORT"
  | .crossPackageFromImport => "CROSS_PACKAGE_FROM_IMPORT"
  | .renameAlias => "RENAME_ALIAS"
  | .starImport => "STAR_IMPORT"
  | .dynamicImport => "DYNAMIC_IMPORT"
  | .patch => "PATCH"
  | .hookTransform => "HOOK_TRANSFORM"

/-- Whether the tagged decision leaves a statement as it was. -/
def passesThrough : Tag → Bool
  | .samePackageInitCircular | .starImport | .dynamicImport => true
  | _ => false

end Tag

structure Entry where
  file : Path
  line : Nat
  before : String
  replacement : List String
  tag : Tag
deriving DecidableEq, Repr

end Vendoring
