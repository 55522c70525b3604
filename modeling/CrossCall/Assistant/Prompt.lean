import CrossCall.Text.Json
/-!
What the assistant is asked: to describe the modules that C code registers, and to write C code that
calls Python as Python code.
-/
namespace CrossCall.Assistant

def expertTask (task : String) : String :=
  "You are a professional C/Python code analysis expert. Your task is to " ++ task ++
    "\n\nPlease output strictly in the specified JSON format without any additional " ++
      "explanations or comments."

def registrationRole : String :=
  expertTask
    "analyze Python module registration information in C code and extract key interface details."

def callRole : String :=
  expertTask "analyze C code and convert embedded Python code to executable Python format."

/-- What the letters of a parameter format mean. -/
def parameterFormats : List (String × String) := [
  ("s", "string (char*)"),
  ("s#", "string with length (char*, int)"),
  ("z", "string or None (char*)"),
  ("z#", "string or None with length (char*, int)"),
  ("u", "unicode string (Py_UNICODE*)"),
  ("u#", "unicode string with length (Py_UNICODE*, int)"),
  ("i", "int"),
  ("b", "unsigned char"),
  ("h", "short"),
  ("l", "long"),
  ("k", "unsigned long"),
  ("L", "long long"),
  ("K", "unsigned long long"),
  ("f", "float"),
  ("d", "double"),
  ("D", "complex (Py_complex)"),
  ("c", "char (length 1)"),
  ("C", "int (character code)"),
  ("O", "PyObject*"),
  ("O!", "PyObject* (with type check)"),
  ("O&", "PyObject* (with converter function)"),
  ("w*", "read-write buffer (Py_buffer*)"),
  ("es", "encoded string"),
  ("et", "encoded string with encoding"),
  ("es#", "encoded string with length"),
  ("et#", "encoded string with encoding and length")]

def formatTable : String :=
  String.intercalate "\n" (parameterFormats.map fun (k, v) => "  '" ++ k ++ "': " ++ v)

/-- An example of the answer that is wanted. -/
def answerSchema : Json := .obj [
  ("total_modules", .int 1),
  ("modules", .arr [.obj [
    ("module_name", .str "Module name (string)"),
    ("functions", .arr [.obj [
      ("python_name", .str "Python function name (string)"),
      ("c_function_name", .str "C function name (string)"),
      ("param_format", .str "Parameter format string (string, e.g., 'l', 'si', 'O')"),
      ("param_types", .arr [.str ("Parameter type list (list of string, " ++
        "e.g., 'long', 'string', 'int', 'PyObject*')")]),
      ("param_count", .str "Parameter count (int)"),
      ("return_type", .str "Return type (string, e.g., 'None', 'int', 'PyObject*')")]])]])]

def schemaText : String := answerSchema.render

/-- Asks for the modules in one piece of code. -/
def registrationPrompt (code : String) : String :=
  String.intercalate "\n" [
    "Please analyze the Python module registration information in the following C code and " ++
      "extract:",
    "",
    "1. **Module Name**: Extract from PyModuleDef structure",
    "2. **Registered Python Functions List**, each function includes:",
    "   - **python_name**: Function name used in Python (from PyMethodDef array)",
    "   - **c_function_name**: Corresponding C function implementation name (from PyMethodDef " ++
      "array)",
    "   - **param_format**: Parameter format string (extracted from PyArg_ParseTuple call in C " ++
      "function, e.g., \"l\", \"si\", \"O\")",
    "   - **param_types**: Parameter type list (inferred from param_format, refer to the " ++
      "mapping table below)",
    "   - **param_count**: Number of parameters (length of param_types array)",
    "   - **return_type**: Return type (inferred from C function return statements, e.g., " ++
      "Py_RETURN_NONE means \"None\")",
    "",
    "## Parameter Format Mapping Reference",
    "",
    formatTable,
    "",
    "## Output Format Requirements",
    "",
    "**MUST strictly follow the JSON format below, DO NOT include any other text:**",
    "",
    "```json",
    schemaText,
    "```",
    "",
    "## Notes",
    "",
    "1. If there are multiple modules in the code, the modules array contains multiple module " ++
      "objects",
    "2. If a function has no parameters, param_format is an empty string \"\", param_types is " ++
      "an empty array [], param_count is 0",
    "3. Common return type values:",
    "   - \"None\" (Py_RETURN_NONE or Py_INCREF(Py_None))",
    "   - \"int\" (PyLong_FromLong)",
    "   - \"float\" (PyFloat_FromDouble)",
    "   - \"string\" (PyUnicode_FromString)",
    "   - \"PyObject*\" (returns other Python objects)",
    "4. Only return JSON, do not add any explanatory text",
    "",
    "## C Code",
    "",
    "```c",
    code,
    "```",
    "",
    "Please output the analysis result in JSON format:"]

/-- Pieces of code under numbered headings. -/
def numberedCodes (codes : List String) : String :=
  String.intercalate "\n\n" (codes.zipIdx.map fun (code, i) =>
    "### Module #" ++ toString (i + 1) ++ "\n\n```c\n" ++ code ++ "\n```")

/-- Asks for the modules in several pieces of code at once. -/
def batchPrompt (codes : List String) : String :=
  String.intercalate "\n" [
    "Please analyze the Python module registration information in the following multiple C code " ++
      "snippets.",
    "",
    "## Parameter Format Mapping Reference",
    "",
    formatTable,
    "",
    "## Output Format",
    "",
    "```json",
    schemaText,
    "```",
    "",
    "## C Code Snippets",
    "",
    numberedCodes codes,
    "",
    "Please output the JSON format result containing all module information:"]

/-- Asks for the Python code that a piece of code amounts to. -/
def callPrompt (code : String) : String :=
  String.intercalate "\n" [
    "Please analyze the following C code and convert it into executable Python code.",
    "",
    "## Task: Convert to Python Code",
    "",
    "Convert the C code into equivalent Python code:",
    "1. Extract Python code strings from PyRun_String, PyRun_SimpleString, etc.",
    "2. Extract function calls from PyDict_GetItemString, PyObject_CallObject, etc.",
    "3. Combine them into complete, executable Python code",
    "4. Resolve dynamic function names (e.g., from snprintf, string concatenation)",
    "",
    "## Output Format Requirements",
    "",
    "**MUST strictly follow the JSON format below, DO NOT include any other text:**",
    "",
    "```json",
    "\x7b",
    "  \"python_code\": \"complete Python code here\"",
    "\x7d",
    "```",
    "",
    "## Example",
    "",
    "For C code:",
    "```c",
    "const char *py = \"def add(a,b):\\n    return a+b\\n\";",
    "PyRun_String(py, Py_file_input, g, g);",
    "PyObject *fn = PyDict_GetItemString(g, \"add\");",
    "PyObject *args = Py_BuildValue(\"(ii)\", 10, 20);",
    "PyObject *ret = PyObject_CallObject(fn, args);",
    "```",
    "",
    "Output:",
    "```json",
    "\x7b",
    "  \"python_code\": \"def add(a, b):\\n    return a + b\\n\\nadd(10, 20)\"",
    "\x7d",
    "```",
    "",
    "## C Code",
    "",
    "```c",
    code,
    "```",
    "",
    "Please output the analysis result in JSON format:"]

end CrossCall.Assistant
