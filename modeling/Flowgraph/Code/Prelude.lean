/-! The fixed part of generated code. -/

namespace Flowgraph.Code

def preludeLines : List String := [
  "#![allow(unused_imports, unused_variables, unused_mut, dead_code, clippy::all)]",
  "",
  "use nodes::\x7bRuntimeContext, StepRegistry, StepResult\x7d;",
  "use serde_json::\x7bjson, Map, Value\x7d;",
  "",
  "/// Field of an upstream output; `null` when the path finds nothing.",
  "fn pick(value: &Value, path: &[&str]) -> Value \x7b",
  "    path.iter()",
  "        .try_fold(value, |current, segment| match current \x7b",
  "            Value::Object(map) => map.get(*segment),",
  "            Value::Array(items) => segment.parse::<usize>().ok().and_then(|i| items.get(i)),",
  "            _ => None,",
  "        \x7d)",
  "        .cloned()",
  "        .unwrap_or(Value::Null)",
  "\x7d",
  "",
  "/// How a value reads when spliced into text.",
  "fn text(value: &Value) -> String \x7b",
  "    match value \x7b",
  "        Value::Null => String::new(),",
  "        Value::String(s) => s.clone(),",
  "        other => other.to_string(),",
  "    \x7d",
  "\x7d",
  "",
  "fn lit(json_text: &str) -> Value \x7b",
  "    serde_json::from_str(json_text).unwrap_or(Value::Null)",
  "\x7d",
  "",
  "async fn invoke(",
  "    registry: &StepRegistry,",
  "    ctx: &RuntimeContext,",
  "    step_type: &str,",
  "    input: Map<String, Value>,",
  ") -> Result<Value, String> \x7b",
  "    let step = registry.resolve(step_type).map_err(|e| e.to_string())?;",
  "    match step.invoke(input, ctx).await \x7b",
  "        StepResult::Success \x7b data \x7d => Ok(data),",
  "        StepResult::Failure \x7b error \x7d => Err(error),",
  "    \x7d",
  "\x7d"]

end Flowgraph.Code
