/-!
# Types of client objects

For each supported service: the types of its client and resource objects, and the module that declares
them.
-/

namespace ServerlessTaint

/-- The types of the objects that give access to a service. Not every service has resource objects. -/
structure ServiceTypes where
  client : String
  resource : Option String
  module : String
  deriving DecidableEq, Repr

namespace ServiceTypes

def both (client resource module : String) : ServiceTypes := ⟨client, some resource, module⟩

def only (client module : String) : ServiceTypes := ⟨client, none, module⟩

def all : List (String × ServiceTypes) := [
  ("s3", both "S3Client" "S3ServiceResource" "mypy_boto3_s3"),
  ("dynamodb", both "DynamoDBClient" "DynamoDBServiceResource" "mypy_boto3_dynamodb"),
  ("sqs", both "SQSClient" "SQSServiceResource" "mypy_boto3_sqs"),
  ("sns", both "SNSClient" "SNSServiceResource" "mypy_boto3_sns"),
  ("athena", only "AthenaClient" "mypy_boto3_athena"),
  ("acm", only "ACMClient" "mypy_boto3_acm"),
  ("apigateway", only "APIGatewayClient" "mypy_boto3_apigateway"),
  ("apigatewaymanagementapi", only "ApiGatewayManagementApiClient" "mypy_boto3_apigatewaymanagementapi"),
  ("batch", only "BatchClient" "mypy_boto3_batch"),
  ("cloudformation", both "CloudFormationClient" "CloudFormationServiceResource" "mypy_boto3_cloudformation"),
  ("cloudtrail", only "CloudTrailClient" "mypy_boto3_cloudtrail"),
  ("cloudwatch", both "CloudWatchClient" "CloudWatchServiceResource" "mypy_boto3_cloudwatch"),
  ("codebuild", only "CodeBuildClient" "mypy_boto3_codebuild"),
  ("codepipeline", only "CodePipelineClient" "mypy_boto3_codepipeline"),
  ("cognito-idp", only "CognitoIdentityProviderClient" "mypy_boto3_cognito_idp"),
  ("comprehend", only "ComprehendClient" "mypy_boto3_comprehend"),
  ("ec2", both "EC2Client" "EC2ServiceResource" "mypy_boto3_ec2"),
  ("ecs", only "ECSClient" "mypy_boto3_ecs"),
  ("efs", only "EFSClient" "mypy_boto3_efs"),
  ("elb", only "ElasticLoadBalancingClient" "mypy_boto3_elb"),
  ("elbv2", only "ElasticLoadBalancingv2Client" "mypy_boto3_elbv2"),
  ("events", only "EventBridgeClient" "mypy_boto3_events"),
  ("firehose", only "FirehoseClient" "mypy_boto3_firehose"),
  ("glue", only "GlueClient" "mypy_boto3_glue"),
  ("iam", both "IAMClient" "IAMServiceResource" "mypy_boto3_iam"),
  ("iot", only "IoTClient" "mypy_boto3_iot"),
  ("iot-data", only "IoTDataPlaneClient" "mypy_boto3_iot_data"),
  ("kinesis", only "KinesisClient" "mypy_boto3_kinesis"),
  ("kms", only "KMSClient" "mypy_boto3_kms"),
  ("lambda", only "LambdaClient" "mypy_boto3_lambda"),
  ("lex-models", only "LexModelBuildingServiceClient" "mypy_boto3_lex_models"),
  ("lex-runtime", only "LexRuntimeServiceClient" "mypy_boto3_lex_runtime"),
  ("lightsail", only "LightsailClient" "mypy_boto3_lightsail"),
  ("logs", only "CloudWatchLogsClient" "mypy_boto3_logs"),
  ("mediaconvert", only "MediaConvertClient" "mypy_boto3_mediaconvert"),
  ("polly", only "PollyClient" "mypy_boto3_polly"),
  ("quicksight", only "QuickSightClient" "mypy_boto3_quicksight"),
  ("rds", only "RDSClient" "mypy_boto3_rds"),
  ("rds-data", only "RDSDataServiceClient" "mypy_boto3_rds_data"),
  ("rekognition", only "RekognitionClient" "mypy_boto3_rekognition"),
  ("resourcegroupstaggingapi", only "ResourceGroupsTaggingAPIClient" "mypy_boto3_resourcegroupstaggingapi"),
  ("route53", only "Route53Client" "mypy_boto3_route53"),
  ("sagemaker", only "SageMakerClient" "mypy_boto3_sagemaker"),
  ("secretsmanager", only "SecretsManagerClient" "mypy_boto3_secretsmanager"),
  ("ses", only "SESClient" "mypy_boto3_ses"),
  ("ssm", only "SSMClient" "mypy_boto3_ssm"),
  ("stepfunctions", only "SFNClient" "mypy_boto3_stepfunctions"),
  ("sts", only "STSClient" "mypy_boto3_sts"),
  ("support", only "SupportClient" "mypy_boto3_support"),
  ("textract", only "TextractClient" "mypy_boto3_textract")
]

def of? (service : String) : Option ServiceTypes := all.lookup service

end ServiceTypes

end ServerlessTaint
