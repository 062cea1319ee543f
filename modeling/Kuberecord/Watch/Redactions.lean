import Kuberecord.RedactionRules
import Kuberecord.Watch.Lister

namespace Kuberecord

open Tallies

section

variable {Sel : Type} {lib : WatchLib Sel} {q : Quoting}
variable {redactions selectors ruleKeys : List String} {key : TargetKey GroupVersionKind Namespace}
  {informer : InformerKey}

section

variable {rules : String × WatchTarget GroupVersionKind Namespace →
  List RedactionRule × List RedactionRule}
  {d : Finset (String × WatchTarget GroupVersionKind Namespace)}
  {key : TargetKey GroupVersionKind Namespace}
  {state : TargetState GroupVersionKind Namespace}

end

end

end Kuberecord
