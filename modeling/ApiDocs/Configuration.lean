import ApiDocs.Json.Basic

/-! The values that the builder of the documentation is configured with. -/

set_option autoImplicit false

namespace ApiDocs.Configuration

def texts (values : List Text) : Json := .list (values.map .text)

def exampleSections : List Text := [
    "Functional Example", "Functional Examples", "Functional Array Example",
    "Functional Array Examples", "Functional Container Example", "Functional Container Examples",
    "Instance Method Example", "Instance Method Examples", "Array Instance Method Example",
    "Array Instance Method Examples", "Container Instance Method Example",
    "Container Instance Method Examples", "Operator Example", "Operator Examples"]

def setting (name : Text) (value : Json) : Text × Json := (name, value)

def values : Table Text Json := [
    setting "project" (.text "Ivy"),
    setting "copyright" (.text "2020-2022, Ivy Team"),
    setting "author" (.text "Ivy Team"),
    setting "release" (.text "1.0"),
    setting "extensions" (texts ["sphinx.ext.autodoc", "sphinx.ext.coverage", "sphinx.ext.mathjax",
      "sphinx.ext.viewcode", "sphinx.ext.autosectionlabel", "sphinx_rtd_theme",
      "sphinx.ext.napoleon", "sphinx_autodoc_typehints"]),
    setting "templates_path" (texts ["_templates"]),
    setting "exclude_patterns" (texts []),
    setting "html_theme" (.text "sphinx_rtd_theme"),
    setting "html_static_path" (texts ["_static"]),
    setting "html_css_files" (texts ["css/custom.css"]),
    setting "autodoc_member_order" (.text "alphabetical"),
    setting "suppress_warnings" (texts []),
    setting "napoleon_google_docstring" (.bool false),
    setting "napoleon_numpy_docstring" (.bool true),
    setting "napoleon_include_init_with_doc" (.bool false),
    setting "napoleon_include_private_with_doc" (.bool false),
    setting "napoleon_include_special_with_doc" (.bool true),
    setting "napoleon_use_admonition_for_examples" (.bool false),
    setting "napoleon_use_admonition_for_notes" (.bool false),
    setting "napoleon_use_admonition_for_references" (.bool false),
    setting "napoleon_use_ivar" (.bool false),
    setting "napoleon_use_param" (.bool true),
    setting "napoleon_use_rtype" (.bool false),
    setting "napoleon_preprocess_types" (.bool false),
    setting "napoleon_type_aliases" .null,
    setting "napoleon_attr_annotations" (.bool true),
    setting "napoleon_custom_sections"
      (.list (exampleSections.map fun title => texts [title, "Examples"])),
    setting "typehints_fully_qualified" (.bool false),
    setting "always_document_param_types" (.bool false),
    setting "typehints_document_rtype" (.bool true),
    setting "typehints_use_rtype" (.bool true),
    setting "typehints_defaults" (.text "braces-after"),
    setting "simplify_optional_unions" (.bool false),
    setting "typehints_formatter" .null]

def value? (name : Text) : Option Json := values.get? name

end ApiDocs.Configuration
