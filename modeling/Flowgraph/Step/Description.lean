import Flowgraph.Step.Registry
import Flowgraph.Text.Quoted

/-! One-line descriptions of descriptors and contexts, for diagnostics. -/

namespace Flowgraph

open Text (quote)

def InputField.description (f : InputField) : String :=
  "InputField \x7b name: " ++ quote f.name ++ ", required: " ++
    (if f.required then "true" else "false") ++ " \x7d"

/-- The step itself is not shown. -/
def StepDescriptor.description (d : StepDescriptor) : String :=
  "StepDescriptor \x7b step_type: " ++ quote d.stepType ++ ", inputs: [" ++
    ", ".intercalate (d.inputs.map InputField.description) ++ "], .. \x7d"

/-- The credentials are not shown. -/
def StepContext.description (ctx : StepContext) : String :=
  "RuntimeContext \x7b workflow_id: " ++ ctx.workflow.text ++ ", execution_id: " ++
    ctx.execution.text ++ ", node_id: " ++ quote ctx.node ++ ", integration_id: " ++
    (match ctx.integrationId with
      | none => "None"
      | some id => "Some(" ++ quote id ++ ")") ++ ", .. \x7d"

end Flowgraph
