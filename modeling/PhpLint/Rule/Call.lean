import PhpLint.Analysis.State

namespace PhpLint.Rule

-- The name of a called function as it is resolved: in small letters and without the
-- separator of namespaces in front.
def calledName (name : Identifier) : String :=
  (dropSeparators name.name).toLower

def aliases : List (String × String) :=
  [("join", "implode"), ("sizeof", "count"), ("chop", "rtrim"), ("close", "closedir"),
    ("is_integer", "is_int"), ("is_long", "is_int"), ("is_double", "is_float"),
    ("is_real", "is_float"), ("doubleval", "floatval"), ("key_exists", "array_key_exists"),
    ("fputs", "fwrite"), ("ini_alter", "ini_set"), ("strchr", "strstr"), ("pos", "current"),
    ("show_source", "highlight_file"), ("diskfreespace", "disk_free_space"),
    ("is_writeable", "is_writable"), ("set_file_buffer", "stream_set_write_buffer")]

def inspectAlias : Node → List Issue
  | .expr (.call name _ location) _ =>
    let called := calledName name
    (aliases.lookup called).toList.map fun canonical =>
      ⟨"fcall.alias", .notice, called ++ "() is an alias of function. Use " ++ canonical ++ "(...).",
        location⟩
  | _ => []

def debugFunctions : List String :=
  ["var_dump", "var_export", "debug_zval_dump", "debug_print_backtrace", "print_r"]

-- The further functions may be written in any case.
def inspectDebug (further : List String) : Node → List Issue
  | .expr (.call name _ location) _ =>
    let called := calledName name
    if called ∈ debugFunctions ++ further.map String.toLower then
      [⟨"debug.code", .notice, "Function " ++ called ++
        "() is a debug function, please don't use it in production.", location⟩]
    else []
  | _ => []

def randomReplacements : List (String × String) :=
  [("rand", "mt_rand"), ("srand", "mt_srand"), ("getrandmax", "mt_getrandmax")]

def inspectRandom : Node → List Issue
  | .expr (.call name _ location) _ =>
    let called := calledName name
    (randomReplacements.lookup called).toList.map fun replacement =>
      ⟨"rand.api.migration", .notice, "Function " ++ called ++
        "() is not recommended, please use " ++ replacement ++ "() instead.", location⟩
  | _ => []

def castReplacements : List (String × String) :=
  [("intval", "int"), ("floatval", "float"), ("doubleval", "float"), ("boolval", "bool"),
    ("strval", "string")]

-- A second argument is a base, which a cast does not take.
def inspectCast : Node → List Issue
  | .expr (.call name [_] location) _ =>
    let called := calledName name
    (castReplacements.lookup called).toList.map fun type =>
      ⟨"fcall.cast", .notice, "Please use (" ++ type ++ ") cast instead of function call " ++
        called ++ "().", location⟩
  | _ => []

inductive OptionStatus where
  | deprecated (version : String)
  | removed (version : String)

def OptionStatus.message (option : String) : OptionStatus → String
  | deprecated version => "Ini option " ++ option ++ " is deprecated since PHP " ++ version ++ "."
  | removed version => "Ini option " ++ option ++ " was removed in PHP " ++ version ++ "."

def optionFunctions : List String :=
  ["ini_set", "ini_get", "ini_alter", "ini_restore"]

def oldOptions : List (String × OptionStatus) :=
  [("define_syslog_variables", .removed "5.4"), ("register_globals", .removed "5.4"),
    ("register_long_arrays", .removed "5.4"), ("safe_mode", .removed "5.4"),
    ("safe_mode_gid", .removed "5.4"), ("safe_mode_include_dir", .removed "5.4"),
    ("safe_mode_exec_dir", .removed "5.4"), ("safe_mode_allowed_env_vars", .removed "5.4"),
    ("safe_mode_protected_env_vars", .removed "5.4"), ("magic_quotes_gpc", .removed "5.4"),
    ("magic_quotes_runtime", .removed "5.4"), ("magic_quotes_sybase", .removed "5.4"),
    ("allow_call_time_pass_reference", .removed "5.4"), ("highlight.bg", .removed "5.4"),
    ("session.bug_compat_42", .removed "5.4"), ("session.bug_compat_warn", .removed "5.4"),
    ("y2k_compliance", .removed "5.4"), ("zend.ze1_compatibility_mode", .removed "5.3"),
    ("iconv.input_encoding", .deprecated "5.6"), ("iconv.output_encoding", .deprecated "5.6"),
    ("iconv.internal_encoding", .deprecated "5.6"), ("mbstring.http_input", .deprecated "5.6"),
    ("mbstring.http_output", .deprecated "5.6"), ("mbstring.internal_encoding", .deprecated "5.6"),
    ("asp_tags", .removed "7.0"), ("always_populate_raw_post_data", .removed "7.0"),
    ("xsl.security_prefs", .removed "7.0"), ("mbstring.func_overload", .deprecated "7.2"),
    ("track_errors", .deprecated "7.2")]

-- The name of the option is the value of the first argument, however it is written.
def inspectOption : Node → List Issue
  | .expr (.call name _ location) operands =>
    if calledName name ∈ optionFunctions then
      match operands.head?.bind Value.text? with
      | some option =>
        (oldOptions.lookup option).toList.map fun status =>
          ⟨"deprecated.option", .warning, status.message option, location⟩
      | none => []
    else []
  | _ => []

end PhpLint.Rule
